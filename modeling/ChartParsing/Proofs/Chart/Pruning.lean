import ChartParsing.Proofs.Chart.Candidates

/-!
# Pruning lowers scores

What more a pass prunes, the lower its cells score: a cell that stays is offered the same
candidates, put together from parts that score no better than before, and a pruned cell
has the lowest score of all.  `Pass.score_prune_le` compares two charts cell by cell in
this way.  Nothing is asked of which cells are pruned.
-/

namespace ChartParsing

/-- A pruning leaves empty every cell that another one leaves empty. -/
def Pruned.Within (fewer more : Pruned) : Prop :=
  ∀ stage label start stop, fewer stage label start stop = true →
    more stage label start stop = true

namespace Pruned.Within

variable {fewer more : Pruned}

theorem of_nothing (pruned : Pruned) : Within .nothing pruned :=
  fun _ _ _ _ dropped => nomatch dropped

/-- A cell that the larger pruning keeps is kept by the smaller one. -/
theorem kept (within : Within fewer more) {stage : Stage} {label : LabelId} {start stop : Nat}
    (kept : more stage label start stop = false) : fewer stage label start stop = false := by
  cases dropped : fewer stage label start stop with
  | false => rfl
  | true => exact absurd (within stage label start stop dropped) (Bool.eq_false_iff.mp kept)

end Pruned.Within

variable {σ : Type} [Score σ]

/-- The best of some offers is no better than the best of others that match them. -/
theorem Best.IsBestOf.score_le [Score.Monotone σ] {α : Type} {offered others : Set (σ × α)}
    {best other : Best σ α} (holds : best.IsBestOf offered) (otherHolds : other.IsBestOf others)
    (matched : ∀ offer ∈ offered, ∃ better ∈ others, offer.1 ≤ better.1) :
    best.score ≤ other.score := by
  rcases holds.attained with same | ⟨choice, -, member⟩
  · rw [same]
    exact Score.Monotone.impossible_le otherHolds.nonpos
  · rcases matched _ member with ⟨better, betterMember, le⟩
    exact Score.Monotone.le_trans le (otherHolds.bound better betterMember)

namespace Pass

/-- The pass that prunes other cells. -/
abbrev prune (pass : Pass σ) (pruned : Pruned) : Pass σ :=
  { pass with pruned }

variable {pass : Pass σ} {more : Pruned} {label : LabelId} {start stop : Nat}
  (within : pass.pruned.Within more) (nonpositive : pass.Nonpositive)

include within nonpositive

/-- Pruning more brings in no positive score. -/
theorem Nonpositive.prune : (pass.prune more).Nonpositive where
  rules := nonpositive.rules
  chains := nonpositive.chains
  tags label known start inside kept :=
    nonpositive.tags label known start inside (within.kept kept)

variable [Score.Descending σ]

omit within in
/-- A cell that is pruned scores no better than before. -/
theorem score_prune_le_of_dropped (nonempty : start < stop) (bounded : stop ≤ pass.length)
    (known : label < pass.model.grammar.labels.size) {stage : Stage}
    (dropped : more stage label start stop = true) :
    (pass.prune more).inside.score stage label start stop ≤
      pass.inside.score stage label start stop := by
  rw [(pass.prune more).score_eq_impossible_of_pruned known nonempty bounded dropped]
  exact Score.Monotone.impossible_le (score_nonpos nonpositive nonempty bounded known stage)

/-- Pruning raises no built cell of a span if it raises no closed cell of a narrower
one. -/
theorem built_prune_le_of_narrower (nonempty : start < stop) (bounded : stop ≤ pass.length)
    (narrower : ∀ label < pass.model.grammar.labels.size, ∀ left right, left < right →
      right ≤ pass.length → right - left < stop - start →
      ((pass.prune more).inside.closed label left right).score ≤
        (pass.inside.closed label left right).score)
    (known : label < pass.model.grammar.labels.size) :
    ((pass.prune more).inside.built label start stop).score ≤
      (pass.inside.built label start stop).score := by
  have prunedNonpositive := nonpositive.prune within
  cases dropped : more .built label start stop with
  | true => exact score_prune_le_of_dropped nonpositive nonempty bounded known dropped
  | false =>
      have kept := within.kept dropped
      by_cases single : stop = start + 1
      · subst single
        apply (isBestOf_word prunedNonpositive known bounded dropped).score_le
          (isBestOf_word nonpositive known bounded kept)
        rintro offer rfl
        exact ⟨_, rfl, Score.le_refl (nonpositive.tags label known start bounded kept)⟩
      · have several : start + 1 < stop := by omega
        apply (isBestOf_split prunedNonpositive known several bounded dropped).score_le
          (isBestOf_split nonpositive known several bounded kept)
        rintro offer ⟨rule, member, middle, between, rfl⟩
        rcases mem_middles.mp between with ⟨after, before⟩
        rcases nonpositive.rules label known rule member with
          ⟨leftKnown, rightKnown, ruleNonpos⟩
        have inTime : middle ≤ pass.length := by omega
        exact ⟨_, ⟨rule, member, middle, between, rfl⟩,
          Score.add_add_le_add_add ruleNonpos
            (score_nonpos nonpositive after inTime leftKnown .closed)
            (score_nonpos nonpositive before bounded rightKnown .closed)
            (narrower rule.left leftKnown start middle after inTime (by omega))
            (narrower rule.right rightKnown middle stop before bounded (by omega))⟩

/-- Pruning raises no closed cell of a span if it raises none of its built cells. -/
theorem closed_prune_le_of_built (nonempty : start < stop) (bounded : stop ≤ pass.length)
    (built : ∀ label < pass.model.grammar.labels.size,
      ((pass.prune more).inside.built label start stop).score ≤
        (pass.inside.built label start stop).score)
    (known : label < pass.model.grammar.labels.size) :
    ((pass.prune more).inside.closed label start stop).score ≤
      (pass.inside.closed label start stop).score := by
  have cells {label : LabelId} (known : label < (pass.prune more).model.grammar.labels.size) :
      (((pass.prune more).builtCells start stop).getD label Best.empty).score ≤
        ((pass.builtCells start stop).getD label Best.empty).score := by
    rw [getD_builtCells known, @getD_builtCells _ _ pass _ _ _ known]
    exact built label known
  cases dropped : more .closed label start stop with
  | true => exact score_prune_le_of_dropped nonpositive nonempty bounded known dropped
  | false =>
      apply (isBestOf_closed (nonpositive.prune within) known nonempty bounded dropped).score_le
        (isBestOf_closed nonpositive known nonempty bounded (within.kept dropped))
      rintro offer (⟨entry, member, rfl⟩ | ⟨noLoop, rfl⟩)
      · rcases nonpositive.chains label known entry member with ⟨childKnown, chainNonpos⟩
        have childNonpos :
            ((pass.builtCells start stop).getD entry.2.child Best.empty).score ≤ 0 := by
          rw [getD_builtCells childKnown]
          exact score_nonpos nonpositive nonempty bounded childKnown .built
        exact ⟨_, Or.inl ⟨entry, member, rfl⟩,
          Score.Monotone.add_le_add chainNonpos childNonpos (Score.le_refl chainNonpos)
            (cells childKnown)⟩
      · exact ⟨_, Or.inr ⟨noLoop, rfl⟩, cells known⟩

/-- Pruning raises the score of no cell. -/
theorem score_prune_le (nonempty : start < stop) (bounded : stop ≤ pass.length)
    (known : label < pass.model.grammar.labels.size) :
    ∀ stage, (pass.prune more).inside.score stage label start stop ≤
      pass.inside.score stage label start stop := by
  apply cell_induction
    (motive := fun stage label start stop =>
      (pass.prune more).inside.score stage label start stop ≤
        pass.inside.score stage label start stop)
    _ _ nonempty bounded known
  · exact fun start stop nonempty bounded narrower label =>
      built_prune_le_of_narrower within nonpositive nonempty bounded narrower
  · exact fun start stop nonempty bounded built label =>
      closed_prune_le_of_built within nonpositive nonempty bounded built

end Pass

end ChartParsing
