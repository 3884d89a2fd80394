import ChartParsing.Decimal.Shortest
import ChartParsing.Score.Basic

/-!
# Binary64 scores

The scores that programs exchange: 64-bit floating-point numbers, whose sums are
rounded and therefore depend on the order of addition.
-/

namespace ChartParsing

instance : Score Float where
  zero := 0
  impossible := -1 / 0
  isFinite := Float.isFinite
  isUndefined := Float.isNaN
  decideLe a b := inferInstanceAs (Decidable (a ≤ b))
  decideLt a b := inferInstanceAs (Decidable (a < b))

namespace Binary64

/-- The shortest decimal of a positive finite number, from the fields of its
bits. -/
def shortest? (bits : Nat) : Option Decimal.Scientific :=
  let fraction := bits % Nat.pow 2 52
  let field : Nat := bits / Nat.pow 2 52 % Nat.pow 2 11
  let interval : Decimal.Interval :=
    if field = 0 then .around fraction (-1074) false
    else
      .around (Nat.pow 2 52 + fraction) ((field : Int) - 1075) (fraction == 0 && 1 < field)
  interval.coarsest? 640 309

/-- The text of a score: the shortest decimal that reads back, never with an
exponent. -/
def text (score : Float) : String :=
  if score.isNaN then "NaN"
  else
    let bits := score.toBits.toNat
    let magnitude :=
      if score.isInf then "inf"
      else if score == 0 then "0"
      else ((shortest? (bits % Nat.pow 2 63)).map (·.positional)).getD ""
    if Nat.pow 2 63 ≤ bits then "-" ++ magnitude else magnitude

end Binary64

end ChartParsing
