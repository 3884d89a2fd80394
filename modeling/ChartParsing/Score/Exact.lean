import ChartParsing.Score.Basic

/-!
# Exact scores

Rational numbers with an infinity on either side and an undefined value, under
exact arithmetic.  The undefined value is what two opposite infinities add up to;
it compares with nothing, itself included.
-/

namespace ChartParsing

/-- A score under exact arithmetic. -/
inductive ExactScore where
  /-- No value. -/
  | undefined
  /-- Below all numbers. -/
  | negativeInfinity
  /-- A number. -/
  | finite (value : Rat)
  /-- Above all numbers. -/
  | positiveInfinity
  deriving DecidableEq

namespace ExactScore

/-- The sum of two scores. -/
def add : ExactScore → ExactScore → ExactScore
  | .finite a, .finite b => .finite (a + b)
  | .finite _, infinite => infinite
  | infinite, .finite _ => infinite
  | .negativeInfinity, .negativeInfinity => .negativeInfinity
  | .positiveInfinity, .positiveInfinity => .positiveInfinity
  | _, _ => .undefined

/-- The opposite of a score. -/
def neg : ExactScore → ExactScore
  | .undefined => .undefined
  | .negativeInfinity => .positiveInfinity
  | .finite a => .finite (-a)
  | .positiveInfinity => .negativeInfinity

/-- The order of the extended rational line. -/
def le : ExactScore → ExactScore → Prop
  | .undefined, _ => False
  | _, .undefined => False
  | .negativeInfinity, _ => True
  | _, .positiveInfinity => True
  | .finite a, .finite b => a ≤ b
  | _, _ => False

/-- The strict order of the extended rational line. -/
def lt : ExactScore → ExactScore → Prop
  | .undefined, _ => False
  | _, .undefined => False
  | _, .negativeInfinity => False
  | .negativeInfinity, _ => True
  | .positiveInfinity, _ => False
  | _, .positiveInfinity => True
  | .finite a, .finite b => a < b

instance (a b : ExactScore) : Decidable (le a b) := by
  cases a <;> cases b <;> dsimp only [le] <;> infer_instance

instance (a b : ExactScore) : Decidable (lt a b) := by
  cases a <;> cases b <;> dsimp only [lt] <;> infer_instance

instance : Score ExactScore where
  zero := .finite 0
  add := add
  neg := neg
  le := le
  lt := lt
  impossible := .negativeInfinity
  isFinite
    | .finite _ => true
    | _ => false
  isUndefined
    | .undefined => true
    | _ => false
  decideLe a b := inferInstanceAs (Decidable (le a b))
  decideLt a b := inferInstanceAs (Decidable (lt a b))

@[simp]
theorem finite_add_finite (a b : Rat) :
    (finite a + finite b : ExactScore) = finite (a + b) :=
  rfl

@[simp]
theorem finite_le_finite {a b : Rat} :
    (finite a ≤ finite b) ↔ a ≤ b :=
  Iff.rfl

@[simp]
theorem finite_lt_finite {a b : Rat} :
    (finite a < finite b) ↔ a < b :=
  Iff.rfl

theorem zero_eq : (0 : ExactScore) = finite 0 :=
  rfl

theorem impossible_eq : (impossible : ExactScore) = negativeInfinity :=
  rfl

end ExactScore

end ChartParsing
