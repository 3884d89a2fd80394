import ChartParsing.Chart.Posterior
import ChartParsing.Proofs.Unary.Reflexive

/-!
# Charts that come out alike

Two models that differ in nothing but closures by which labels are closed and opened alike
fill charts alike: the same constituents at scores that are not told apart, closed by
steps that leave the same nodes.  So the same cells are pruned by them and the same
derivations are read off them.

Nothing is asked of labels and spans: what lies outside a chart is empty in both.
-/

namespace ChartParsing

/-! ## Tables -/

namespace Rows

variable {α β : Type} {Related : α → β → Prop} {default : α} {other : β}

/-- Tables are related if their cells are computed alike from related rows. -/
theorem related_fill {width : Nat → Nat} {cell : Rows α → Nat → Nat → α}
    {otherCell : Rows β → Nat → Nat → β} (outside : Related default other)
    (step : ∀ table otherTable,
      (∀ row column, Related (table.getD row column default)
        (otherTable.getD row column other)) →
      ∀ row column, Related (cell table row column) (otherCell otherTable row column))
    (count : Nat) :
    ∀ row column, Related ((fill width cell count).getD row column default)
      ((fill width otherCell count).getD row column other) := by
  induction count with
  | zero =>
      intro row column
      rw [getD_fill_of_count_le width cell column default (Nat.zero_le row),
        getD_fill_of_count_le width otherCell column other (Nat.zero_le row)]
      exact outside
  | succ last inductionHypothesis =>
      intro row column
      rcases Nat.lt_trichotomy row last with earlier | rfl | later
      · rw [getD_fill_succ width cell column default earlier,
          getD_fill_succ width otherCell column other earlier]
        exact inductionHypothesis row column
      · have filled := Nat.lt_succ_self row
        rcases Nat.lt_or_ge column (width row) with inside | missing
        · rw [getD_fill width cell default filled inside,
            getD_fill width otherCell other filled inside]
          exact step _ _ inductionHypothesis row column
        · rw [getD_fill_of_width_le width cell default filled missing,
            getD_fill_of_width_le width otherCell other filled missing]
          exact outside
      · rw [getD_fill_of_count_le width cell column default later,
          getD_fill_of_count_le width otherCell column other later]
        exact outside

end Rows

/-- The entry of a list of computed ones, or a default beyond its end. -/
theorem getD_ofFn {α : Type} {count : Nat} (entry : Nat → α) (index : Nat) (default : α) :
    (Array.ofFn fun place : Fin count => entry place).getD index default =
      if index < count then entry index else default := by
  rw [Array.getD_eq_getD_getElem?, Array.getElem?_ofFn]
  split <;> rfl

variable {σ : Type} [Score σ] {Same : σ → σ → Prop}

/-! ## Inside charts -/

/-- The cells of a span hold the same constituents. -/
structure SpanCells.Alike (Same : σ → σ → Prop) (cells other : SpanCells σ) : Prop where
  built : ∀ label, Best.Alike Same Eq (cells.built.getD label Best.empty)
    (other.built.getD label Best.empty)
  closed : ∀ label, Best.Alike Same (Closing.Alike label)
    (cells.closed.getD label Best.empty) (other.closed.getD label Best.empty)

/-- All cells of two charts hold the same constituents. -/
def InsideChart.Alike (Same : σ → σ → Prop) (chart other : InsideChart σ) : Prop :=
  ∀ row column, SpanCells.Alike Same (chart.cells.getD row column ⟨#[], #[]⟩)
    (other.cells.getD row column ⟨#[], #[]⟩)

/-- The model with another closure. -/
abbrev Model.withClosure (model : Model σ) (closure : UnaryClosure σ) : Model σ :=
  { model with closure }

variable (congruence : Score.Congruence Same)

namespace InsideChart.Alike

variable {chart other : InsideChart σ} (alike : chart.Alike Same other)

include alike

theorem built (label : LabelId) (start stop : Nat) :
    Best.Alike Same Eq (chart.built label start stop) (other.built label start stop) :=
  (alike _ _).built label

theorem closed (label : LabelId) (start stop : Nat) :
    Best.Alike Same (Closing.Alike label) (chart.closed label start stop)
      (other.closed label start stop) :=
  (alike _ _).closed label

theorem score : ∀ stage (label : LabelId) (start stop : Nat),
    Same (chart.score stage label start stop) (other.score stage label start stop)
  | .built, label, start, stop => (alike.built label start stop).score
  | .closed, label, start, stop => (alike.closed label start stop).score

include congruence

/-- A rule builds the same from charts that are alike, and passes over the same
splits. -/
theorem offerSplits (start stop : Nat) (rule : BinaryRule σ)
    {best otherBest : Best σ (Construction σ)} (soFar : Best.Alike Same Eq best otherBest) :
    Best.Alike Same Eq (chart.offerSplits start stop best rule)
      (other.offerSplits start stop otherBest rule) := by
  unfold InsideChart.offerSplits
  apply List.foldl_rel soFar
  intro middle _ best otherBest soFar
  have half := congruence.add (congruence.refl rule.score)
    (alike.closed rule.left start middle).score
  dsimp only
  by_cases passedOver : rule.score + (chart.closed rule.left start middle).score ≤ best.score
  · rw [if_pos passedOver, if_pos ((congruence.le_iff half soFar.score).mp passedOver)]
    exact soFar
  · rw [if_neg passedOver, if_neg (passedOver ∘ (congruence.le_iff half soFar.score).mpr)]
    exact soFar.offer congruence
      (congruence.add half (alike.closed rule.right middle stop).score) rfl

theorem bestSplit (grammar : Grammar σ) (label : LabelId) (start stop : Nat) :
    Best.Alike Same Eq (chart.bestSplit grammar label start stop)
      (other.bestSplit grammar label start stop) := by
  unfold InsideChart.bestSplit
  apply List.foldl_rel (Best.Alike.empty congruence)
  intro rule _ best otherBest soFar
  exact alike.offerSplits congruence start stop rule soFar

end InsideChart.Alike

namespace Pass

variable {model : Model σ} {closure other : UnaryClosure σ}
  (closures : closure.Alike Same model.grammar.labels.size other)

include congruence closures

/-- The cells of a span are filled alike from charts that are alike. -/
theorem spanCells_alike (words : List String) (pruned : Pruned) {chart otherChart : InsideChart σ}
    (alike : chart.Alike Same otherChart) (start stop : Nat) :
    SpanCells.Alike Same
      (spanCells ⟨model.withClosure closure, words, pruned⟩ chart start stop)
      (spanCells ⟨model.withClosure other, words, pruned⟩ otherChart start stop) := by
  have builtAlike (label : LabelId) : Best.Alike Same Eq
      ((spanCells ⟨model.withClosure closure, words, pruned⟩ chart start stop).built.getD label
        Best.empty)
      ((spanCells ⟨model.withClosure other, words, pruned⟩ otherChart start stop).built.getD
        label Best.empty) := by
    unfold spanCells
    dsimp only
    rw [getD_ofFn fun label => builtCell ⟨model.withClosure closure, words, pruned⟩ chart label
        start stop,
      getD_ofFn fun label => builtCell ⟨model.withClosure other, words, pruned⟩ otherChart label
        start stop]
    split
    · unfold builtCell
      dsimp only
      split
      · exact .empty congruence
      · split
        · exact (Best.Alike.empty congruence).offer congruence (congruence.refl _) rfl
        · exact alike.bestSplit congruence model.grammar label start stop
    · exact .empty congruence
  refine ⟨builtAlike, ?_⟩
  intro label
  unfold spanCells
  dsimp only
  rw [getD_ofFn fun label => closedCell ⟨model.withClosure closure, words, pruned⟩ _ label
      start stop,
    getD_ofFn fun label => closedCell ⟨model.withClosure other, words, pruned⟩ _ label
      start stop]
  split
  · rename_i known
    unfold closedCell
    dsimp only
    split
    · exact .empty congruence
    · exact closures.closing label known _ _ builtAlike
  · exact .empty congruence

/-- The inside charts of a sentence are alike. -/
theorem inside_alike (words : List String) (pruned : Pruned) :
    (inside ⟨model.withClosure closure, words, pruned⟩).Alike Same
      (inside ⟨model.withClosure other, words, pruned⟩) := by
  unfold InsideChart.Alike inside
  apply Rows.related_fill
  · exact ⟨fun _ => .empty congruence, fun _ => .empty congruence⟩
  · intro narrower otherNarrower alike row start
    have charts : InsideChart.Alike Same ⟨narrower⟩ ⟨otherNarrower⟩ := alike
    exact spanCells_alike congruence closures words pruned charts start (start + row + 1)

/-! ## Derivations -/

omit congruence closures in
/-- The same derivations are read off charts that are alike. -/
theorem derivation?_alike (words : List String) (pruned : Pruned)
    {chart otherChart : InsideChart σ} (alike : chart.Alike Same otherChart) :
    ∀ (label : LabelId) (start stop : Nat),
      derivation? ⟨model.withClosure closure, words, pruned⟩ chart label start stop =
        derivation? ⟨model.withClosure other, words, pruned⟩ otherChart label start stop := by
  -- The induction is on the width of the span, for all labels.
  suffices ∀ width label start stop, stop - start = width →
      derivation? ⟨model.withClosure closure, words, pruned⟩ chart label start stop =
        derivation? ⟨model.withClosure other, words, pruned⟩ otherChart label start stop from
    fun label start stop => this _ label start stop rfl
  intro width
  induction width using Nat.strong_induction_on with
  | _ width inductionHypothesis =>
    rintro label start stop rfl
    have closed := (alike.closed label start stop).choice
    rw [derivation?, derivation?]
    dsimp only
    generalize (chart.closed label start stop).choice = closing? at closed
    generalize (otherChart.closed label start stop).choice = otherClosing? at closed
    cases closed with
    | none => rfl
    | @some closing otherClosing same =>
        rcases same with ⟨base, above⟩
        dsimp only
        rw [base, above, (alike.built (otherClosing.base label) start stop).choice_eq]
        split
        · rfl
        · rfl
        · rename_i rule middle _
          split
          · rename_i inside
            rw [inductionHypothesis (middle - start) (by omega) rule.left start middle rfl,
              inductionHypothesis (stop - middle) (by omega) rule.right middle stop rfl]
          · rfl

end Pass

/-! ## Outside charts -/

/-- The contexts of a span are not told apart. -/
def ContextCells.Alike (Same : σ → σ → Prop) (cells other : ContextCells σ) : Prop :=
  ∀ stage label, Same (cells.score stage label) (other.score stage label)

/-- The contexts of all spans of two charts are not told apart. -/
structure OutsideChart.Alike (Same : σ → σ → Prop) (chart other : OutsideChart σ) : Prop where
  length : chart.length = other.length
  cells : ∀ row column, ContextCells.Alike Same (chart.cells.getD row column ⟨#[], #[]⟩)
    (other.cells.getD row column ⟨#[], #[]⟩)

namespace OutsideChart.Alike

variable {chart other : OutsideChart σ} (alike : chart.Alike Same other)
  {inside otherInside : InsideChart σ} (insides : inside.Alike Same otherInside)

include alike

theorem score (stage : Stage) (label : LabelId) (start stop : Nat) :
    Same (chart.score stage label start stop) (other.score stage label start stop) := by
  unfold OutsideChart.score OutsideChart.span
  rw [alike.length]
  exact alike.cells _ _ stage label

include congruence insides

/-- The best contexts in charts that are alike are not told apart. -/
theorem bestContext (grammar : Grammar σ) (label : LabelId) (start stop : Nat) :
    Same (chart.bestContext grammar inside label start stop)
      (other.bestContext grammar otherInside label start stop) := by
  unfold OutsideChart.bestContext
  rw [alike.length]
  apply List.foldl_rel
  · apply List.foldl_rel (congruence.refl impossible)
    intro rule _ best otherBest soFar
    apply List.foldl_rel soFar
    intro left _ best otherBest soFar
    exact congruence.better soFar
      (congruence.add
        (congruence.add (congruence.refl rule.score) (alike.score .built rule.parent left stop))
        (insides.closed rule.left left start).score)
  · intro rule _ best otherBest soFar
    apply List.foldl_rel soFar
    intro right _ best otherBest soFar
    exact congruence.better soFar
      (congruence.add
        (congruence.add (congruence.refl rule.score) (alike.score .built rule.parent start right))
        (insides.closed rule.right stop right).score)

end OutsideChart.Alike

namespace Model

variable {model : Model σ} {closure other : UnaryClosure σ}
  (closures : closure.Alike Same model.grammar.labels.size other)

include congruence closures

/-- The contexts of a span are found alike from charts that are alike. -/
theorem contextCells_alike {chart otherChart : OutsideChart σ}
    (alike : chart.Alike Same otherChart) {inside otherInside : InsideChart σ}
    (insides : inside.Alike Same otherInside) (start stop : Nat) :
    ContextCells.Alike Same
      (chart.contextCells (model.withClosure closure) inside start stop)
      (otherChart.contextCells (model.withClosure other) otherInside start stop) := by
  have closedAlike (label : LabelId) : Same
      ((chart.contextCells (model.withClosure closure) inside start stop).closed.getD label
        impossible)
      ((otherChart.contextCells (model.withClosure other) otherInside start stop).closed.getD
        label impossible) := by
    unfold OutsideChart.contextCells
    dsimp only
    rw [getD_ofFn fun label => if stop - start = chart.length then
        if label = model.grammar.root then 0 else impossible
        else chart.bestContext model.grammar inside label start stop,
      getD_ofFn fun label => if stop - start = otherChart.length then
        if label = model.grammar.root then 0 else impossible
        else otherChart.bestContext model.grammar otherInside label start stop,
      alike.length]
    split
    · split
      · exact congruence.refl _
      · exact alike.bestContext congruence insides model.grammar label start stop
    · exact congruence.refl impossible
  intro stage label
  cases stage with
  | closed => exact closedAlike label
  | built =>
      unfold ContextCells.score OutsideChart.contextCells
      dsimp only
      rw [getD_ofFn fun label => OutsideChart.bestOpening closure _ label,
        getD_ofFn fun label => OutsideChart.bestOpening other _ label]
      split
      · rename_i known
        exact closures.opening label known _ _ closedAlike
      · exact congruence.refl impossible

/-- The outside charts around inside charts that are alike are alike. -/
theorem outside_alike (length : Nat) {inside otherInside : InsideChart σ}
    (insides : inside.Alike Same otherInside) :
    ((model.withClosure closure).outside length inside).Alike Same
      ((model.withClosure other).outside length otherInside) where
  length := rfl
  cells := by
    unfold outside
    apply Rows.related_fill
    · intro stage label
      cases stage <;> exact congruence.refl impossible
    · intro wider otherWider alike missing start
      have charts : OutsideChart.Alike Same ⟨length, wider⟩ ⟨length, otherWider⟩ :=
        ⟨rfl, alike⟩
      exact contextCells_alike congruence closures charts insides start
        (start + (length - missing))

end Model

/-! ## Posteriors -/

include congruence in
/-- The same cells are pruned in the light of charts that are alike. -/
theorem Posterior.prunedBelow_alike {posterior other : Posterior σ}
    (insides : posterior.inside.Alike Same other.inside)
    (outsides : posterior.outside.Alike Same other.outside)
    (totals : Same posterior.total other.total) (threshold : σ) (toCoarse : Array LabelId) :
    posterior.prunedBelow threshold toCoarse = other.prunedBelow threshold toCoarse := by
  funext stage label start stop
  have marginals : Same (posterior.marginal stage (toCoarse.getD label 0) start stop)
      (other.marginal stage (toCoarse.getD label 0) start stop) :=
    congruence.add
      (congruence.add (congruence.neg totals) (outsides.score .built _ start stop))
      (insides.score stage _ start stop)
  exact decide_eq_decide.mpr (congruence.lt_iff marginals (congruence.refl threshold))

end ChartParsing
