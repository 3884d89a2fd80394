import ChartParsing.Chart.Derivation
import ChartParsing.Proofs.Chart.Candidates

/-!
# Every possible cell has a derivation

The choices below a closed cell that is not impossible lead down to the words, so that a
derivation can be read off it (`Pass.exists_derivation?`).  No more is used of scores than
`Score.Lawful` asks for: a constituent is possible only if its parts are, and no better
than they are, since addition is monotone and adding zero raises no score.
-/

namespace ChartParsing.Pass

variable {σ : Type} [Score σ] {pass : Pass σ} {label : LabelId} {start stop : Nat}

/-- The choices below a closed cell lead to a derivation unless it is impossible. -/
def Derivable (pass : Pass σ) (label : LabelId) (start stop : Nat) : Prop :=
  pass.inside.score .closed label start stop ≠ impossible →
    ∃ tree, pass.derivation? pass.inside label start stop = some tree

/-- What a built cell that is not impossible holds, with the score that it has: the only
word, or a split into possible parts. -/
inductive Constructed (pass : Pass σ) (label : LabelId) (start stop : Nat) :
    Construction σ → Prop
  | word : stop = start + 1 →
      pass.inside.score .built label start stop =
        pass.model.tagScore (pass.words.getD start "") (pass.model.grammar.labels.name label) →
      Constructed pass label start stop .word
  | split {rule : BinaryRule σ} {middle : Nat} :
      rule ∈ pass.model.grammar.byParent.rules label → start < middle → middle < stop →
      rule.left < pass.model.grammar.labels.size →
      rule.right < pass.model.grammar.labels.size →
      pass.inside.score .closed rule.left start middle ≠ impossible →
      pass.inside.score .closed rule.right middle stop ≠ impossible →
      pass.inside.score .built label start stop =
        rule.score + pass.inside.score .closed rule.left start middle +
          pass.inside.score .closed rule.right middle stop →
      Constructed pass label start stop (.split rule middle)

/-- What a derivation has below its unary step: the only word, or the derivations of the
parts of a split. -/
inductive Rebuilt (pass : Pass σ) (chart : InsideChart σ) (label : LabelId)
    (start stop : Nat) : Tree String → Prop
  | word : (chart.built label start stop).choice = some .word →
      Rebuilt pass chart label start stop
        (.node (pass.model.grammar.labels.name label) [.leaf (pass.words.getD start "")])
  | split {rule : BinaryRule σ} {middle : Nat} {left right : Tree String} :
      (chart.built label start stop).choice = some (.split rule middle) →
      start < middle → middle < stop →
      pass.derivation? chart rule.left start middle = some left →
      pass.derivation? chart rule.right middle stop = some right →
      Rebuilt pass chart label start stop
        (.node (pass.model.grammar.labels.name label) [left, right])

/-- A derivation follows the choices of the closed cell and of the built cell below it. -/
theorem exists_rebuilt_of_derivation? {chart : InsideChart σ} {tree : Tree String}
    (derived : pass.derivation? chart label start stop = some tree) :
    ∃ closing below, (chart.closed label start stop).choice = some closing ∧
      pass.Rebuilt chart (closing.base label) start stop below ∧
      tree = Tree.under (closing.above.map pass.model.grammar.labels.name) below := by
  rw [derivation?] at derived
  dsimp only at derived
  split at derived
  · cases derived
  rename_i closing closed
  split at derived
  · cases derived
  · rename_i word
    exact ⟨closing, _, closed, .word word, (Option.some.inj derived).symm⟩
  · rename_i rule middle split
    split at derived
    · rename_i between
      rcases Option.bind_eq_some_iff.mp derived with ⟨left, leftDerived, derived⟩
      rcases Option.bind_eq_some_iff.mp derived with ⟨right, rightDerived, derived⟩
      exact ⟨closing, _, closed, .split split between.1 between.2 leftDerived rightDerived,
        (Option.some.inj derived).symm⟩
    · cases derived

variable [Score.Lawful σ] (nonpositive : pass.Nonpositive)

include nonpositive

/-- A possible built cell has chosen its word, or a split into possible parts. -/
theorem exists_construction (nonempty : start < stop) (bounded : stop ≤ pass.length)
    (known : label < pass.model.grammar.labels.size)
    (possible : pass.inside.score .built label start stop ≠ impossible) :
    ∃ construction, (pass.inside.built label start stop).choice = some construction ∧
      pass.Constructed label start stop construction := by
  have kept := kept_of_possible known nonempty bounded possible
  by_cases single : stop = start + 1
  · subst single
    obtain ⟨choice, chosen, offered⟩ :=
      (isBestOf_word nonpositive known bounded kept).exists_choice possible
    rcases Prod.mk.inj offered with ⟨sameScore, rfl⟩
    exact ⟨_, chosen, .word rfl sameScore⟩
  · obtain ⟨choice, chosen, rule, listed, middle, between, same⟩ :=
      (isBestOf_split nonpositive known (by omega) bounded kept).exists_choice possible
    rcases Prod.mk.inj same with ⟨sameScore, rfl⟩
    rcases mem_middles.mp between with ⟨after, before⟩
    rcases nonpositive.rules label known rule listed with ⟨leftKnown, rightKnown, ruleNonpos⟩
    change pass.inside.score .built label start stop = _ at sameScore
    rw [sameScore] at possible
    obtain ⟨leftPossible, rightPossible⟩ := Score.possible_of_add_add_possible ruleNonpos
      (score_nonpos nonpositive after (by omega) leftKnown .closed)
      (score_nonpos nonpositive before bounded rightKnown .closed) possible
    exact ⟨_, chosen,
      .split listed after before leftKnown rightKnown leftPossible rightPossible sameScore⟩

/-- A possible closed cell has chosen a way to close a possible built cell. -/
theorem exists_closing (nonempty : start < stop) (bounded : stop ≤ pass.length)
    (known : label < pass.model.grammar.labels.size)
    (possible : pass.inside.score .closed label start stop ≠ impossible) :
    ∃ closing, (pass.inside.closed label start stop).choice = some closing ∧
      (pass.inside.score .closed label start stop, closing) ∈
        InsideChart.closings pass.model.closure (pass.builtCells start stop) label ∧
      closing.base label < pass.model.grammar.labels.size ∧
      pass.inside.score .built (closing.base label) start stop ≠ impossible := by
  have kept := kept_of_possible known nonempty bounded possible
  obtain ⟨closing, chosen, offered⟩ :=
    (isBestOf_closed nonpositive known nonempty bounded kept).exists_choice possible
  refine ⟨closing, chosen, offered, ?_⟩
  rcases offered with ⟨entry, listed, same⟩ | ⟨-, same⟩
  · rcases Prod.mk.inj same with ⟨sameScore, rfl⟩
    rcases nonpositive.chains label known entry listed with ⟨childKnown, chainNonpos⟩
    change (pass.inside.closed label start stop).score ≠ impossible at possible
    rw [sameScore, getD_builtCells childKnown] at possible
    obtain ⟨-, builtPossible⟩ := Score.possible_of_add_possible chainNonpos
      (score_nonpos nonpositive nonempty bounded childKnown .built) possible
    exact ⟨childKnown, builtPossible⟩
  · rcases Prod.mk.inj same with ⟨sameScore, rfl⟩
    change (pass.inside.closed label start stop).score ≠ impossible at possible
    rw [sameScore, getD_builtCells known] at possible
    exact ⟨known, possible⟩

/-- A possible closed cell leads to a derivation if those of narrower spans do. -/
theorem derivable_of_narrower (nonempty : start < stop) (bounded : stop ≤ pass.length)
    (known : label < pass.model.grammar.labels.size)
    (narrower : ∀ label < pass.model.grammar.labels.size, ∀ left right, left < right →
      right ≤ pass.length → right - left < stop - start → pass.Derivable label left right) :
    pass.Derivable label start stop := by
  intro possible
  obtain ⟨closing, chosen, -, baseKnown, basePossible⟩ :=
    exists_closing nonpositive nonempty bounded known possible
  obtain ⟨construction, built, holds⟩ :=
    exists_construction nonpositive nonempty bounded baseKnown basePossible
  rw [derivation?, chosen]
  dsimp only
  rw [built]
  cases holds with
  | word => exact ⟨_, rfl⟩
  | split _ after before leftKnown rightKnown leftPossible rightPossible =>
      obtain ⟨left, leftFound⟩ :=
        narrower _ leftKnown _ _ after (by omega) (by omega) leftPossible
      obtain ⟨right, rightFound⟩ :=
        narrower _ rightKnown _ _ before bounded (by omega) rightPossible
      dsimp only
      rw [dif_pos ⟨after, before⟩, leftFound, rightFound]
      exact ⟨_, rfl⟩

/-- A derivation can be read off every closed cell that is not impossible. -/
theorem exists_derivation? (nonempty : start < stop) (bounded : stop ≤ pass.length)
    (known : label < pass.model.grammar.labels.size) : pass.Derivable label start stop := by
  induction width : stop - start using Nat.strong_induction_on generalizing label start stop
    with
  | _ width inductionHypothesis =>
    apply derivable_of_narrower nonpositive nonempty bounded known
    intro label known left right between within narrower
    exact inductionHypothesis _ (width ▸ narrower) between within known rfl

end ChartParsing.Pass
