import ChartParsing.Chart.Recurrence
import ChartParsing.Proofs.Score.Laws

/-!
# The candidates for a cell

Each cell of an inside chart holds the best of its candidates: for a built cell the
word below it or the ways to split its span, for a closed cell the chains of the
closure and, where none of them is a loop, the constituent as built.  This is
`Pass.isBestOf_word`, `Pass.isBestOf_split` and `Pass.isBestOf_closed`.  Passing
over a left part that scores no better than the best so far loses nothing, because
no score in the chart is positive; `Pass.score_nonpos` is the invariant behind that.

No more is used of scores than `Score.Descending` asks for: on top of monotony, that adding
zero on the right raises no score.
-/

namespace ChartParsing

variable {σ : Type} [Score σ]

namespace InsideChart

/-- What a rule builds over a span that is split before the word `middle`. -/
def candidate (chart : InsideChart σ) (start stop : Nat) (rule : BinaryRule σ)
    (middle : Nat) : σ × Construction σ :=
  (rule.score + (chart.closed rule.left start middle).score +
    (chart.closed rule.right middle stop).score, .split rule middle)

/-- What the given rules build over a span. -/
def splits (chart : InsideChart σ) (rules : List (BinaryRule σ)) (start stop : Nat) :
    Set (σ × Construction σ) :=
  {offer | ∃ rule ∈ rules, ∃ middle ∈ middles start stop,
    offer = chart.candidate start stop rule middle}

/-- The ways to close a label over a span whose built cells are given. -/
def closings (closure : UnaryClosure σ) (built : Array (Best σ (Construction σ)))
    (label : LabelId) : Set (σ × Closing σ) :=
  {offer | ∃ entry ∈ closure.byParent.chains label,
    offer = (entry.2.score + (built.getD entry.2.child Best.empty).score,
      .byChain entry.2)} ∪
  {offer | (closure.byParent.chains label).any (·.2.isReflexive) = false ∧
    offer = ((built.getD label Best.empty).score, .asBuilt)}

variable [Score.Descending σ] {chart : InsideChart σ} {start stop : Nat}

/-- The splits of one rule are all offered, those passed over among them. -/
theorem isBestOf_offerSplits {rule : BinaryRule σ} (ruleNonpos : rule.score ≤ 0)
    (partsNonpos : ∀ middle ∈ middles start stop,
      (chart.closed rule.left start middle).score ≤ 0 ∧
        (chart.closed rule.right middle stop).score ≤ 0)
    {offered : Set (σ × Construction σ)} {best : Best σ (Construction σ)}
    (holds : best.IsBestOf offered) :
    (chart.offerSplits start stop best rule).IsBestOf
      (offered ∪ {offer | ∃ middle ∈ middles start stop,
        offer ∈ ({chart.candidate start stop rule middle} :
          Set (σ × Construction σ))}) := by
  unfold offerSplits
  apply foldl_offered (fun middle => {chart.candidate start stop rule middle}) _ holds
  intro offered best middle member holds
  rcases partsNonpos middle member with ⟨leftNonpos, rightNonpos⟩
  have halfNonpos := Score.add_nonpos ruleNonpos leftNonpos
  dsimp only
  split
  · rename_i passedOver
    have worse := Score.Monotone.le_trans (Score.add_le_left halfNonpos rightNonpos)
      passedOver
    exact holds.skip worse (.split rule middle)
  · exact holds.offer (Score.add_nonpos halfNonpos rightNonpos) (.split rule middle)

/-- The best split of a span is the best of all ways to split it. -/
theorem isBestOf_bestSplit {grammar : Grammar σ} {label : LabelId}
    (rulesNonpos : ∀ rule ∈ grammar.byParent.rules label, rule.score ≤ 0)
    (partsNonpos : ∀ rule ∈ grammar.byParent.rules label,
      ∀ middle ∈ middles start stop,
        (chart.closed rule.left start middle).score ≤ 0 ∧
          (chart.closed rule.right middle stop).score ≤ 0) :
    (chart.bestSplit grammar label start stop).IsBestOf
      (chart.splits (grammar.byParent.rules label) start stop) := by
  have offered := foldl_offered
    (fun rule => {offer | ∃ middle ∈ middles start stop,
      offer ∈ ({chart.candidate start stop rule middle} : Set (σ × Construction σ))})
    (fun _ _ rule member holds =>
      isBestOf_offerSplits (rulesNonpos rule member) (partsNonpos rule member) holds)
    Best.IsBestOf.empty_of_empty
  rw [Set.empty_union] at offered
  exact offered

/-- The best closing of a label is the best of all ways to close it. -/
theorem isBestOf_bestClosing {closure : UnaryClosure σ}
    {built : Array (Best σ (Construction σ))} {label : LabelId}
    (chainsNonpos : ∀ entry ∈ closure.byParent.chains label,
      entry.2.score ≤ 0 ∧ (built.getD entry.2.child Best.empty).score ≤ 0)
    (builtNonpos : (built.getD label Best.empty).score ≤ 0) :
    (bestClosing closure built label).IsBestOf (closings closure built label) := by
  have offered := foldl_offered
    (fun entry : Nat × UnaryChain σ =>
      {(entry.2.score + (built.getD entry.2.child Best.empty).score,
        Closing.byChain entry.2)})
    (fun _ _ entry member holds =>
      holds.offer
        (Score.add_nonpos (chainsNonpos entry member).1 (chainsNonpos entry member).2)
        (.byChain entry.2))
    Best.IsBestOf.empty_of_empty
  rw [Set.empty_union] at offered
  unfold bestClosing closings
  dsimp only
  cases loop : (closure.byParent.chains label).any (·.2.isReflexive) with
  | true =>
      simp only [Bool.true_eq_false, false_and, Set.ofPred_false, Set.union_empty]
      exact offered
  | false =>
      simp only [true_and]
      exact offered.offer builtNonpos .asBuilt

end InsideChart

namespace Pass

/-- A pass that meets known labels and no positive score. -/
structure Nonpositive (pass : Pass σ) : Prop where
  rules : ∀ label < pass.model.grammar.labels.size,
    ∀ rule ∈ pass.model.grammar.byParent.rules label,
      rule.left < pass.model.grammar.labels.size ∧
        rule.right < pass.model.grammar.labels.size ∧ rule.score ≤ 0
  chains : ∀ label < pass.model.grammar.labels.size,
    ∀ entry ∈ pass.model.closure.byParent.chains label,
      entry.2.child < pass.model.grammar.labels.size ∧ entry.2.score ≤ 0
  tags : ∀ label < pass.model.grammar.labels.size, ∀ start < pass.length,
    pass.pruned .built label start (start + 1) = false →
    pass.model.tagScore (pass.words.getD start "")
      (pass.model.grammar.labels.name label) ≤ 0

variable [Score.Descending σ] {pass : Pass σ} {label : LabelId} {start stop : Nat}

omit [Score.Descending σ] in
theorem getD_builtCells (known : label < pass.model.grammar.labels.size) :
    (pass.builtCells start stop).getD label Best.empty =
      pass.inside.built label start stop := by
  simp [builtCells, known]

section

variable (nonpositive : pass.Nonpositive) (nonempty : start < stop)
  (bounded : stop ≤ pass.length)

include nonpositive nonempty bounded

/-- The built cells of a span are not positive if those of narrower spans are
not. -/
theorem built_nonpos_of_narrower
    (narrower : ∀ label < pass.model.grammar.labels.size, ∀ left right, left < right →
      right ≤ pass.length → right - left < stop - start →
      (pass.inside.closed label left right).score ≤ 0)
    (known : label < pass.model.grammar.labels.size) :
    (pass.inside.built label start stop).score ≤ 0 := by
  rw [pass.built_inside nonempty bounded known]
  unfold builtCell
  split
  · exact Score.impossible_nonpos
  · rename_i kept
    split
    · rename_i single
      subst single
      rw [Best.score_offer]
      exact Score.better_nonpos Score.impossible_nonpos
        (nonpositive.tags label known start bounded (Bool.not_eq_true _ ▸ kept))
    · refine (InsideChart.isBestOf_bestSplit ?_ ?_).nonpos
      · exact fun rule member => (nonpositive.rules label known rule member).2.2
      · intro rule member middle between
        rcases mem_middles.mp between with ⟨after, before⟩
        rcases nonpositive.rules label known rule member with ⟨leftKnown, rightKnown, -⟩
        exact ⟨narrower rule.left leftKnown start middle after (by omega) (by omega),
          narrower rule.right rightKnown middle stop before bounded (by omega)⟩

/-- The closed cells of a span are not positive if its built cells are not. -/
theorem closed_nonpos_of_built
    (built : ∀ label < pass.model.grammar.labels.size,
      (pass.inside.built label start stop).score ≤ 0)
    (known : label < pass.model.grammar.labels.size) :
    (pass.inside.closed label start stop).score ≤ 0 := by
  rw [pass.closed_inside nonempty bounded known]
  unfold closedCell
  split
  · exact Score.impossible_nonpos
  · refine (InsideChart.isBestOf_bestClosing ?_ ?_).nonpos
    · intro entry member
      rcases nonpositive.chains label known entry member with ⟨childKnown, scoreNonpos⟩
      rw [getD_builtCells childKnown]
      exact ⟨scoreNonpos, built entry.2.child childKnown⟩
    · rw [getD_builtCells known]
      exact built label known

end

omit [Score σ] [Score.Descending σ] in
/-- All cells of a chart have a property that built cells get from the closed cells of
narrower spans, and closed cells from the built cells of the same span. -/
theorem cell_induction {labelCount length : Nat}
    {motive : Stage → LabelId → Nat → Nat → Prop}
    (built : ∀ start stop, start < stop → stop ≤ length →
      (∀ label < labelCount, ∀ left right, left < right → right ≤ length →
        right - left < stop - start → motive .closed label left right) →
      ∀ label < labelCount, motive .built label start stop)
    (closed : ∀ start stop, start < stop → stop ≤ length →
      (∀ label < labelCount, motive .built label start stop) →
      ∀ label < labelCount, motive .closed label start stop)
    (nonempty : start < stop) (bounded : stop ≤ length) (known : label < labelCount) :
    ∀ stage, motive stage label start stop := by
  -- The induction is on the width of the span, for all labels and both stages.
  suffices ∀ width start stop, start < stop → stop ≤ length → stop - start = width →
      ∀ label < labelCount, motive .built label start stop ∧ motive .closed label start stop by
    intro stage
    rcases this _ start stop nonempty bounded rfl label known with ⟨ofBuilt, ofClosed⟩
    cases stage with
    | built => exact ofBuilt
    | closed => exact ofClosed
  intro width
  induction width using Nat.strong_induction_on with
  | _ width inductionHypothesis =>
    rintro start stop nonempty bounded rfl label known
    have ofBuilt : ∀ label < labelCount, motive .built label start stop := by
      apply built start stop nonempty bounded
      intro label known left right between within narrower
      exact (inductionHypothesis _ narrower left right between within rfl label known).2
    exact ⟨ofBuilt label known, closed start stop nonempty bounded ofBuilt label known⟩

/-- No score in the chart of a pass is positive. -/
theorem score_nonpos (nonpositive : pass.Nonpositive) (nonempty : start < stop)
    (bounded : stop ≤ pass.length) (known : label < pass.model.grammar.labels.size) :
    ∀ stage, pass.inside.score stage label start stop ≤ 0 := by
  apply cell_induction
    (motive := fun stage label start stop => pass.inside.score stage label start stop ≤ 0)
    _ _ nonempty bounded known
  · exact fun start stop nonempty bounded narrower label =>
      built_nonpos_of_narrower nonpositive nonempty bounded narrower
  · exact fun start stop nonempty bounded built label =>
      closed_nonpos_of_built nonpositive nonempty bounded built

/-! ## Cells that are not pruned -/

section

variable (nonpositive : pass.Nonpositive) (known : label < pass.model.grammar.labels.size)

include nonpositive known

/-- Over a single word the built cell holds the word. -/
theorem isBestOf_word (bounded : start < pass.length)
    (kept : pass.pruned .built label start (start + 1) = false) :
    (pass.inside.built label start (start + 1)).IsBestOf
      {(pass.model.tagScore (pass.words.getD start "")
        (pass.model.grammar.labels.name label), .word)} := by
  rw [pass.built_inside (Nat.lt_succ_self start) bounded known]
  rw [builtCell, if_neg (by simp [kept]), if_pos rfl]
  have offered := Best.IsBestOf.empty_of_empty.offer
    (nonpositive.tags label known start bounded kept) (Construction.word (σ := σ))
  rw [Set.empty_union] at offered
  exact offered

/-- Over several words the built cell holds the best way to split them. -/
theorem isBestOf_split (several : start + 1 < stop) (bounded : stop ≤ pass.length)
    (kept : pass.pruned .built label start stop = false) :
    (pass.inside.built label start stop).IsBestOf
      (pass.inside.splits (pass.model.grammar.byParent.rules label) start stop) := by
  rw [pass.built_inside (by omega) bounded known]
  rw [builtCell, if_neg (by simp [kept]), if_neg (by omega)]
  apply InsideChart.isBestOf_bestSplit
  · exact fun rule member => (nonpositive.rules label known rule member).2.2
  · intro rule member middle between
    rcases mem_middles.mp between with ⟨after, before⟩
    rcases nonpositive.rules label known rule member with ⟨leftKnown, rightKnown, -⟩
    exact ⟨score_nonpos nonpositive after (by omega) leftKnown .closed,
      score_nonpos nonpositive before bounded rightKnown .closed⟩

/-- The closed cell holds the best way to close what is built over its span. -/
theorem isBestOf_closed (nonempty : start < stop) (bounded : stop ≤ pass.length)
    (kept : pass.pruned .closed label start stop = false) :
    (pass.inside.closed label start stop).IsBestOf
      (InsideChart.closings pass.model.closure (pass.builtCells start stop) label) := by
  rw [pass.closed_inside nonempty bounded known]
  rw [closedCell, if_neg (by simp [kept])]
  apply InsideChart.isBestOf_bestClosing
  · intro entry member
    rcases nonpositive.chains label known entry member with ⟨childKnown, scoreNonpos⟩
    rw [getD_builtCells childKnown]
    exact ⟨scoreNonpos, score_nonpos nonpositive nonempty bounded childKnown .built⟩
  · rw [getD_builtCells known]
    exact score_nonpos nonpositive nonempty bounded known .built

end

omit [Score.Descending σ] in
/-- A pruned cell is empty. -/
theorem score_eq_impossible_of_pruned (known : label < pass.model.grammar.labels.size)
    (nonempty : start < stop) (bounded : stop ≤ pass.length) :
    ∀ {stage}, pass.pruned stage label start stop = true →
      pass.inside.score stage label start stop = impossible
  | .built, dropped => by
      change (pass.inside.built label start stop).score = impossible
      rw [pass.built_inside nonempty bounded known]
      simp [builtCell, dropped]
  | .closed, dropped => by
      change (pass.inside.closed label start stop).score = impossible
      rw [pass.closed_inside nonempty bounded known]
      simp [closedCell, dropped]

omit [Score.Descending σ] in
/-- A cell that is not impossible has not been pruned. -/
theorem kept_of_possible (known : label < pass.model.grammar.labels.size)
    (nonempty : start < stop) (bounded : stop ≤ pass.length) {stage : Stage}
    (possible : pass.inside.score stage label start stop ≠ impossible) :
    pass.pruned stage label start stop = false := by
  by_contra dropped
  exact possible (score_eq_impossible_of_pruned known nonempty bounded
    (Bool.not_eq_false _ ▸ dropped))

end Pass

end ChartParsing
