import ChartParsing.Refinement.Label
import ChartParsing.Tree.Basic

/-!
# Collapsing rare labels

Long sibling histories make for labels that a treebank shows too seldom to
estimate.  Collapsing drops the oldest sibling from the history of every label
that occurs fewer than a given number of times.  Only the labels above the
preterminals are counted and changed.
-/

namespace ChartParsing.Refinement

/-- The labels of a forest that collapsing counts: those of the nodes that are
neither leaves nor preterminals. -/
def countedLabels (forest : Forest String) : List String :=
  let counted := (Forest.subtrees forest).filter fun tree =>
    !(tree.isLeaf || tree.isPreterminal)
  counted.map Tree.label

mutual

/-- Relabel the nodes of a tree that are neither leaves nor preterminals. -/
def relabelAbove (relabel : String → String) : Tree String → Tree String
  | .node label [] => .node label []
  | .node label (first :: rest) =>
      if (Tree.node label (first :: rest)).isPreterminal then
        .node label (first :: rest)
      else
        .node (relabel label)
          (relabelAbove relabel first :: relabelAllAbove relabel rest)

/-- Relabel each tree of a forest above its preterminals. -/
def relabelAllAbove (relabel : String → String) : Forest String → Forest String
  | [] => []
  | first :: rest => relabelAbove relabel first :: relabelAllAbove relabel rest

end

theorem relabelAllAbove_eq_map (relabel : String → String)
    (forest : Forest String) :
    relabelAllAbove relabel forest = List.map (relabelAbove relabel) forest := by
  induction forest with
  | nil => rfl
  | cons first rest inductionHypothesis =>
      simp [relabelAllAbove, inductionHypothesis]

/-- What becomes of a label when those that occur fewer than `atLeast` times in
`counted` are collapsed. -/
def collapseLabel (counted : List String) (atLeast : Nat) (label : String) :
    String :=
  let collapsed := dropOldest label
  if collapsed ≠ label ∧ counted.count label < atLeast then collapsed else label

/-- Drop the oldest sibling from the history of every counted label that occurs
fewer than `atLeast` times across the forest. -/
def collapseRare (atLeast : Nat) (forest : Forest String) : Forest String :=
  relabelAllAbove (collapseLabel (countedLabels forest) atLeast) forest

/-- Collapsing looks at a label's count alone: a label without a history is its
own collapsed form. -/
theorem collapseLabel_eq (counted : List String) (atLeast : Nat)
    (label : String) :
    collapseLabel counted atLeast label =
      if counted.count label < atLeast then dropOldest label else label := by
  by_cases same : dropOldest label = label <;>
    by_cases rare : counted.count label < atLeast <;>
    simp [collapseLabel, same, rare]

end ChartParsing.Refinement
