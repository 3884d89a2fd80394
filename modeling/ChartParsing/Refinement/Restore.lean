import ChartParsing.Refinement.Label
import ChartParsing.Tree.Basic

/-!
# Removing annotations

An annotated tree is brought back by splicing its intermediate nodes out, so
that their children join the constituent they are part of, and by cutting every
other inner label down to its base.  Words are left alone, whatever they look
like.
-/

namespace ChartParsing.Refinement

mutual

/-- Splice out the intermediate nodes below the top and cut the other inner
labels down to their base. -/
def unannotate : Tree String → Tree String
  | .node label [] => .node label []
  | .node label (first :: rest) =>
      .node (baseLabel label) (spliced first ++ splicedAll rest)

/-- The trees that take the place of a child: those of its own children if it is
an intermediate node, else the child itself without its annotation. -/
def spliced : Tree String → Forest String
  | .node label [] => [.node label []]
  | .node label (first :: rest) =>
      let below := spliced first ++ splicedAll rest
      if isIntermediate label then below else [.node (baseLabel label) below]

/-- The trees that take the place of a sequence of children. -/
def splicedAll : Forest String → Forest String
  | [] => []
  | first :: rest => spliced first ++ splicedAll rest

end

theorem splicedAll_eq_flatMap (forest : Forest String) :
    splicedAll forest = forest.flatMap spliced := by
  induction forest with
  | nil => rfl
  | cons first rest inductionHypothesis =>
      simp [splicedAll, inductionHypothesis]

/-- An inner node keeps its base label over its spliced children. -/
theorem unannotate_node {children : Forest String} (label : String)
    (nonempty : children ≠ []) :
    unannotate (.node label children) =
      .node (baseLabel label) (children.flatMap spliced) := by
  cases children with
  | nil => exact absurd rfl nonempty
  | cons first rest => simp [unannotate, splicedAll_eq_flatMap]

/-- The word in place of the children of a sentence that has no parse. -/
def failureWord : String := "JUNK"

/-- The tree that stands for a sentence without a parse. -/
def failureTree (root : String) : Tree String :=
  .node root [.leaf failureWord]

end ChartParsing.Refinement
