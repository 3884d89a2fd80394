import ChartParsing.Chart.Posterior
import ChartParsing.Proofs.Chart.OutsideBest

/-!
# Marginals

The sum of an outside and an inside score is the best score of a parse that has a node
of the label over the span (`Pass.isBestOf_scoresThrough`): the outside score of a
built constituent allows a chain of unary rules above the node, the inside score of a
closed one a chain below it, and the two make up one chain.  The marginal is this
score relative to the best parse of all, so none is positive, and the nodes of a best
parse have the marginal zero.
-/

namespace ChartParsing

/-- The scores of the parses of a sentence that have a node of a label over the words
from `start` to before `stop`.  At the built stage the node has to have a word or two
constituents below it. -/
def Model.scoresThrough {σ : Type} [Score σ] (model : Model σ) (words : List String)
    (stage : Stage) (label : LabelId) (start stop : Nat) : Set σ :=
  {score | ∃ tree, model.IsParse words tree score ∧
    ∃ node, (start, node) ∈ tree.placed 0 ∧ node.isLeaf = false ∧
      node.label = model.grammar.labels.name label ∧ start + node.leaves.length = stop ∧
      (stage = .built → node.isUnaryStep = false)}

namespace Pass

/-- The charts of a sentence around and inside its constituents. -/
def posterior {σ : Type} [Score σ] (pass : Pass σ) : Posterior σ where
  inside := pass.inside
  outside := pass.outside
  total := pass.total

variable {pass : Pass ExactScore} {label : LabelId} {start stop : Nat} {stage : Stage}

section

variable (sound : pass.model.Sound) (nonpositive : pass.Nonpositive)
  (unpruned : pass.pruned = .nothing)

include sound nonpositive unpruned

/-- No parse through a node beats the outside and the inside score of the node. -/
theorem le_outside_add_inside (known : label < pass.model.grammar.labels.size)
    (nonempty : 0 < pass.length) {score : ExactScore}
    (through : score ∈ pass.model.scoresThrough pass.words stage label start stop) :
    score ≤ pass.outside.score .built label start stop +
      pass.inside.score stage label start stop := by
  rcases through with ⟨tree, parse, node, placed, inner, labelled, rfl, built⟩
  have admits := (admits_root_iff_isParse sound.grammar unpruned).mpr parse
  obtain ⟨found, outer, own, around, closed, asBuilt, sum⟩ :=
    Surrounds.splits_of_mem_placed sound.grammar unpruned admits (.whole nonempty) placed
      inner
  obtain rfl : found = label :=
    Vocabulary.name_injective sound.grammar.distinct (closed.known sound.grammar) known
      (closed.derives.label_eq.symm.trans labelled)
  rw [zero_add] at sum
  rw [← sum]
  have outerLe := around.score_le sound nonpositive
  have outsideNonpos := around.outside_nonpos sound nonpositive
  cases stage with
  | built =>
      have admits := asBuilt (built rfl)
      exact ExactScore.add_le_add outsideNonpos (admits.inside_nonpos sound nonpositive)
        outerLe (admits.score_le sound nonpositive)
  | closed =>
      exact ExactScore.add_le_add outsideNonpos (closed.inside_nonpos sound nonpositive)
        outerLe (closed.score_le sound nonpositive)

/-- The outside and the inside score of a node add up to the score of a parse through
it. -/
theorem outside_add_inside_mem_scoresThrough
    (known : label < pass.model.grammar.labels.size) (nonempty : start < stop)
    (bounded : stop ≤ pass.length)
    (possible : pass.outside.score .built label start stop +
      pass.inside.score stage label start stop ≠ impossible) :
    pass.outside.score .built label start stop +
        pass.inside.score stage label start stop ∈
      pass.model.scoresThrough pass.words stage label start stop := by
  have around := surrounded sound nonpositive nonempty bounded .built
  have within := isBestOf_admits sound nonpositive nonempty bounded known stage
  obtain ⟨outsidePossible, insidePossible⟩ := Score.possible_of_add_possible
    (around.nonpos label known) within.nonpos possible
  rcases within.attained.resolve_left insidePossible with ⟨tree, admits⟩
  obtain ⟨whole, wholeAdmits, included⟩ :=
    (around.attained label known outsidePossible).exists_whole sound.grammar unpruned admits
  refine ⟨whole, wholeAdmits.isParse sound.grammar, tree,
    included (Tree.self_mem_placed start tree), admits.derives.isLeaf,
    admits.derives.label_eq, admits.start_add_length, ?_⟩
  rintro rfl
  exact admits.isUnaryStep

/-- The outside and the inside score of a node add up to the best score of a parse
through it. -/
theorem isBestOf_scoresThrough (known : label < pass.model.grammar.labels.size)
    (nonempty : start < stop) (bounded : stop ≤ pass.length) :
    Score.IsBestOf (pass.model.scoresThrough pass.words stage label start stop)
      (pass.outside.score .built label start stop +
        pass.inside.score stage label start stop) where
  nonpos :=
    Score.add_nonpos
      ((surrounded sound nonpositive nonempty bounded .built).nonpos label known)
      (score_nonpos nonpositive nonempty bounded known stage)
  bound _ through :=
    le_outside_add_inside sound nonpositive unpruned known (by omega) through
  attained := by
    by_cases possible : pass.outside.score .built label start stop +
        pass.inside.score stage label start stop = impossible
    · exact Or.inl possible
    · exact Or.inr (outside_add_inside_mem_scoresThrough sound nonpositive unpruned known
        nonempty bounded possible)

end

/-- A marginal is the score of the best parse through a node relative to the total. -/
theorem marginal_posterior (pass : Pass ExactScore) (stage : Stage) (label : LabelId)
    (start stop : Nat) :
    pass.posterior.marginal stage label start stop =
      pass.outside.score .built label start stop +
        pass.inside.score stage label start stop + -pass.total := by
  rw [Posterior.marginal, add_assoc, add_comm]
  rfl

end Pass

end ChartParsing
