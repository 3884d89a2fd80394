import Mathlib.Data.Option.Basic
import ChartParsing.Best

/-!
# Scores that are not told apart

Numbers may differ in the sign of a zero, and no sum or comparison tells them apart.  A
`Score.Congruence` is a relation of this kind, under which adding zero changes nothing;
equality is one where zero is neutral.  Searches for the best that are offered the same
candidates at scores that are not told apart end with the same choice, as
`Best.Alike.offer` has it for one step.
-/

namespace ChartParsing

/-- A relation between scores that sums and comparisons respect and under which zero is
neutral. -/
structure Score.Congruence {σ : Type} [Score σ] (Same : σ → σ → Prop) : Prop where
  equivalence : Equivalence Same
  add {a b c d : σ} : Same a b → Same c d → Same (a + c) (b + d)
  neg {a b : σ} : Same a b → Same (-a) (-b)
  le_iff {a b c d : σ} : Same a b → Same c d → (a ≤ c ↔ b ≤ d)
  lt_iff {a b c d : σ} : Same a b → Same c d → (a < c ↔ b < d)
  zero_add (a : σ) : Same (0 + a) a

/-- What has been found best twice: at scores that are not told apart, and by choices that
are related. -/
structure Best.Alike {σ α β : Type} (Same : σ → σ → Prop) (Related : α → β → Prop)
    (best : Best σ α) (other : Best σ β) : Prop where
  score : Same best.score other.score
  choice : Option.Rel Related best.choice other.choice

variable {σ : Type} [Score σ]

/-- Equality is a congruence where zero is neutral. -/
theorem Score.Congruence.of_zero_add (neutral : ∀ a : σ, 0 + a = a) :
    Score.Congruence (Eq : σ → σ → Prop) where
  equivalence := eq_equivalence
  add := by
    rintro a _ c _ rfl rfl
    rfl
  neg := congrArg Neg.neg
  le_iff := by
    rintro a _ c _ rfl rfl
    rfl
  lt_iff := by
    rintro a _ c _ rfl rfl
    rfl
  zero_add := neutral

variable {Same : σ → σ → Prop} (congruence : Score.Congruence Same)

include congruence

namespace Score.Congruence

theorem refl (a : σ) : Same a a :=
  congruence.equivalence.refl a

variable {a b c d : σ} (first : Same a b) (second : Same c d)

include first

theorem isImpossible_eq : isImpossible a = isImpossible b :=
  decide_eq_decide.mpr (congruence.le_iff first (congruence.refl impossible))

include second

theorem better : Same (Score.better a c) (Score.better b d) := by
  unfold Score.better
  by_cases less : a < c
  · rw [if_pos less, if_pos ((congruence.lt_iff first second).mp less)]
    exact second
  · rw [if_neg less, if_neg (less ∘ (congruence.lt_iff first second).mpr)]
    exact first

end Score.Congruence

namespace Best.Alike

variable {α β : Type} {Related : α → β → Prop} {best : Best σ α} {other : Best σ β}

theorem empty : Alike Same Related (Best.empty : Best σ α) (Best.empty : Best σ β) where
  score := congruence.refl impossible
  choice := .none

/-- One more candidate is offered to each. -/
theorem offer (alike : Alike Same Related best other) {score otherScore : σ}
    (same : Same score otherScore) {candidate : α} {otherCandidate : β}
    (related : Related candidate otherCandidate) :
    Alike Same Related (best.offer score candidate) (other.offer otherScore otherCandidate) := by
  unfold Best.offer
  by_cases less : best.score < score
  · rw [if_pos less, if_pos ((congruence.lt_iff alike.score same).mp less)]
    exact ⟨same, .some related⟩
  · rw [if_neg less, if_neg (less ∘ (congruence.lt_iff alike.score same).mpr)]
    exact alike

omit congruence in
/-- One more candidate is offered to each at the same score. -/
theorem offer_eq (alike : Alike Eq Related best other) (score : σ) {candidate : α}
    {otherCandidate : β} (related : Related candidate otherCandidate) :
    Alike Eq Related (best.offer score candidate) (other.offer score otherCandidate) := by
  unfold Best.offer
  rw [← alike.score]
  split
  · exact ⟨rfl, .some related⟩
  · exact alike

omit congruence [Score σ] in
theorem choice_eq {best other : Best σ α} (alike : Alike Same Eq best other) :
    best.choice = other.choice := by
  rcases best with ⟨score, choice⟩
  rcases other with ⟨otherScore, otherChoice⟩
  cases alike.choice with
  | none => rfl
  | some same => exact congrArg some same

end Best.Alike

end ChartParsing
