import Mathlib.Algebra.Order.Ring.Rat
import Mathlib.Order.Bounds.Defs
import ChartParsing.Proofs.Score.Laws
import ChartParsing.Score.Exact

/-!
# The laws of exact scores

Exact addition is associative and commutative on all scores, infinite and
undefined ones included.  The order is that of the rational line below zero, with
the impossible score beneath it, so exact scores are lawful, and a best score is a
greatest one.
-/

namespace ChartParsing

namespace ExactScore

/-! ## Addition -/

/-- Exact scores add up in any order and grouping. -/
instance : AddCommMonoid ExactScore where
  add_assoc a b c := by
    cases a <;> cases b <;> cases c
    case finite.finite.finite x y z => exact congrArg finite (Rat.add_assoc x y z)
    all_goals rfl
  zero_add a := by
    cases a
    case finite x => exact congrArg finite (Rat.zero_add x)
    all_goals rfl
  add_zero a := by
    cases a
    case finite x => exact congrArg finite (Rat.add_zero x)
    all_goals rfl
  add_comm a b := by
    cases a <;> cases b
    case finite.finite x y => exact congrArg finite (Rat.add_comm x y)
    all_goals rfl
  nsmul := nsmulRec

/-- The sum and the zero of exact scores are found as those of scores, not through
the monoid. -/
instance : Add ExactScore := Score.toAdd

instance : Zero ExactScore := Score.toZero

/-! ## Order -/

theorem nonpos_iff {a : ExactScore} :
    a ≤ 0 ↔ a = impossible ∨ ∃ value ≤ 0, a = finite value := by
  cases a with
  | undefined => exact ⟨False.elim, by simp [impossible_eq]⟩
  | negativeInfinity => exact ⟨fun _ => Or.inl rfl, fun _ => trivial⟩
  | finite value => simp [zero_eq, impossible_eq]
  | positiveInfinity => exact ⟨False.elim, by simp [impossible_eq]⟩

/-- Below a score that is not positive lie the smaller numbers and what is
impossible. -/
theorem le_iff_of_nonpos {a b : ExactScore} (nonpos : b ≤ 0) :
    a ≤ b ↔ a = impossible ∨ ∃ x y, x ≤ y ∧ a = finite x ∧ b = finite y := by
  obtain rfl | ⟨y, -, rfl⟩ := nonpos_iff.mp nonpos
  · cases a with
    | negativeInfinity => exact ⟨fun _ => Or.inl rfl, fun _ => trivial⟩
    | undefined => exact ⟨False.elim, by simp [impossible_eq]⟩
    | finite value => exact ⟨False.elim, by simp [impossible_eq]⟩
    | positiveInfinity => exact ⟨False.elim, by simp [impossible_eq]⟩
  · cases a with
    | negativeInfinity => exact ⟨fun _ => Or.inl rfl, fun _ => trivial⟩
    | undefined => exact ⟨False.elim, by simp [impossible_eq]⟩
    | finite value => simp [impossible_eq]
    | positiveInfinity => exact ⟨False.elim, by simp [impossible_eq]⟩

protected theorem le_refl {a : ExactScore} (nonpos : a ≤ 0) : a ≤ a := by
  obtain rfl | ⟨value, -, rfl⟩ := nonpos_iff.mp nonpos
  · trivial
  · exact Rat.le_refl

protected theorem le_trans {a b c : ExactScore} (first : a ≤ b) (second : b ≤ c) :
    a ≤ c := by
  cases a <;> cases b <;> cases c
  case finite.finite.finite x y z => exact Rat.le_trans first second
  all_goals trivial

protected theorem le_antisymm {a b : ExactScore} (first : a ≤ b) (second : b ≤ a) :
    a = b := by
  cases a <;> cases b
  case finite.finite x y => exact congrArg finite (Rat.le_antisymm first second)
  case negativeInfinity.negativeInfinity => rfl
  case positiveInfinity.positiveInfinity => rfl
  all_goals contradiction

theorem not_lt_of_le {a b : ExactScore} (le : a ≤ b) : ¬b < a := by
  intro lt
  cases a <;> cases b
  case finite.finite x y => exact Rat.not_lt.mpr le lt
  all_goals contradiction

theorem impossible_le {a : ExactScore} (nonpos : a ≤ 0) : impossible ≤ a := by
  obtain rfl | ⟨value, -, rfl⟩ := nonpos_iff.mp nonpos <;> trivial

/-- No score but the impossible one is as low as it. -/
theorem eq_impossible_of_le {a : ExactScore} (low : a ≤ impossible) : a = impossible :=
  ExactScore.le_antisymm low
    (impossible_le (ExactScore.le_trans low trivial))

protected theorem add_le_add {a b c d : ExactScore} (left : c ≤ 0) (right : d ≤ 0)
    (first : a ≤ c) (second : b ≤ d) : a + b ≤ c + d := by
  have sum : impossible ≤ c + d := by
    obtain rfl | ⟨x, -, rfl⟩ := nonpos_iff.mp left <;>
      obtain rfl | ⟨y, -, rfl⟩ := nonpos_iff.mp right <;> trivial
  obtain rfl | ⟨x, z, firstLe, rfl, rfl⟩ := (le_iff_of_nonpos left).mp first <;>
    obtain rfl | ⟨y, w, secondLe, rfl, rfl⟩ := (le_iff_of_nonpos right).mp second
  · exact sum
  · exact sum
  · exact sum
  · rw [finite_add_finite, finite_add_finite, finite_le_finite]
    exact add_le_add firstLe secondLe

instance : Score.Lawful ExactScore where
  zero_nonpos := Rat.le_refl
  impossible_le := impossible_le
  le_trans := ExactScore.le_trans
  le_total left right := by
    obtain rfl | ⟨x, -, rfl⟩ := nonpos_iff.mp left
    · exact Or.inl (impossible_le right)
    · obtain rfl | ⟨y, -, rfl⟩ := nonpos_iff.mp right
      · exact Or.inr (impossible_le left)
      · exact Rat.le_total
  lt_iff_not_le left right := by
    obtain rfl | ⟨x, -, rfl⟩ := nonpos_iff.mp left <;>
      obtain rfl | ⟨y, -, rfl⟩ := nonpos_iff.mp right
    · exact ⟨False.elim, fun different => different trivial⟩
    · exact ⟨fun _ => id, fun _ => trivial⟩
    · exact ⟨False.elim, fun different => different trivial⟩
    · exact Rat.not_le.symm
  add_le_add := ExactScore.add_le_add
  add_zero_le {a} nonpos := by
    rw [add_zero]
    exact ExactScore.le_refl nonpos
  zero_add_le {a} nonpos := by
    rw [zero_add]
    exact ExactScore.le_refl nonpos
  add_impossible nonpos := by
    obtain rfl | ⟨value, -, rfl⟩ := nonpos_iff.mp nonpos <;> rfl
  impossible_add nonpos := by
    obtain rfl | ⟨value, -, rfl⟩ := nonpos_iff.mp nonpos <;> rfl
  nonpos_of_not_pos := by
    intro a isValue notPositive
    cases a with
    | undefined => cases isValue
    | negativeInfinity => trivial
    | finite value => exact Rat.not_lt.mp notPositive
    | positiveInfinity => exact absurd trivial notPositive

theorem isFinite_iff {a : ExactScore} :
    Score.isFinite a = true ↔ ∃ value, a = finite value := by
  cases a <;> simp [Score.isFinite]

/-! ## Differences -/

/-- Scores compare as they do relative to a number. -/
theorem add_neg_le_add_neg {a b total : ExactScore} (le : a ≤ b)
    (finite : Score.isFinite total = true) : a + -total ≤ b + -total := by
  rcases isFinite_iff.mp finite with ⟨value, rfl⟩
  cases a <;> cases b
  case finite.finite x y => exact Rat.add_le_add_right.mpr le
  all_goals exact le

theorem add_neg_self {total : ExactScore} (finite : Score.isFinite total = true) :
    total + -total = 0 := by
  rcases isFinite_iff.mp finite with ⟨value, rfl⟩
  exact congrArg ExactScore.finite (Rat.add_neg_cancel value)

/-- Relative to the best of all scores none is positive. -/
theorem add_neg_nonpos {score total : ExactScore} (le : score ≤ total)
    (finite : Score.isFinite total = true) : score + -total ≤ 0 := by
  rw [← add_neg_self finite]
  exact add_neg_le_add_neg le finite

/-- A score that is not positive and not impossible is a number. -/
theorem isFinite_iff_of_nonpos {a : ExactScore} (nonpos : a ≤ 0) :
    Score.isFinite a = true ↔ a ≠ impossible := by
  obtain rfl | ⟨value, -, rfl⟩ := nonpos_iff.mp nonpos
  · simp [impossible_eq, Score.isFinite]
  · simp [impossible_eq, Score.isFinite]

/-- What is not below a number and not positive is a number. -/
theorem isFinite_of_le {a b : ExactScore} (finite : Score.isFinite a = true)
    (le : a ≤ b) (nonpos : b ≤ 0) : Score.isFinite b = true := by
  rcases isFinite_iff.mp finite with ⟨value, rfl⟩
  rw [isFinite_iff_of_nonpos nonpos]
  rintro rfl
  exact le

instance : Score.Thresholded ExactScore where
  lt_of_lt_of_le {a b c} less le := by
    cases a <;> cases b <;> cases c
    case finite.finite.finite x y z => exact lt_of_lt_of_le (α := Rat) less le
    all_goals trivial
  lt_of_le_of_lt {a b c} le less := by
    cases a <;> cases b <;> cases c
    case finite.finite.finite x y z => exact lt_of_le_of_lt (α := Rat) le less
    all_goals trivial
  not_lt_impossible {a} less := by cases a <;> exact less
  not_lt_of_isUndefined {a b} undefined less := by
    cases b with
    | undefined => cases a <;> exact less
    | _ => cases undefined
  neg_add_add_nonpos {total outer} nonpos possible outerNonpos := by
    obtain rfl | ⟨value, -, rfl⟩ := nonpos_iff.mp nonpos
    · cases possible
    · rw [add_comm, ← add_assoc, add_neg_self rfl, zero_add]
      exact outerNonpos

instance : Score.Signed ExactScore where
  pos_iff {a} finite := by
    rcases isFinite_iff.mp finite with ⟨value, rfl⟩
    exact Rat.not_le.symm

theorem isImpossible_iff_of_nonpos {a : ExactScore} (nonpos : a ≤ 0) :
    Score.isImpossible a = true ↔ a = impossible := by
  rw [Score.isImpossible, decide_eq_true_iff]
  constructor
  · intro below
    exact ExactScore.le_antisymm below (impossible_le nonpos)
  · rintro rfl
    trivial

/-- A score that is not positive is a value. -/
theorem isUndefined_eq_false {a : ExactScore} (nonpos : a ≤ 0) : Score.isUndefined a = false := by
  obtain rfl | ⟨value, -, rfl⟩ := nonpos_iff.mp nonpos <;> rfl

/-- The best of exact scores is a greatest one. -/
theorem isGreatest_of_isBestOf {offered : Set ExactScore} {best : ExactScore}
    (holds : Score.IsBestOf offered best) :
    IsGreatest (insert impossible offered) best := by
  constructor
  · exact holds.attained
  · rintro score (rfl | member)
    · exact impossible_le holds.nonpos
    · exact holds.bound score member

end ExactScore

end ChartParsing
