/-!
# Shortest decimals

A binary number `m · 2 ^ q` stands for all reals that round to it.  Its shortest
decimal is the coarsest of the grids `10 ^ e` that has a point among those
reals, and on that grid the point nearest to the number.

Everything is compared in natural numbers: the number, the ends of its interval
and the points of the grid are scaled by powers of two and ten until all of them
are whole.
-/

namespace ChartParsing.Decimal

/-- A decimal `digits · 10 ^ exponent`. -/
structure Scientific where
  digits : Nat
  exponent : Int
  deriving DecidableEq, Repr

/-- The reals around `significand · 2 ^ exponent` that round to it, in quarters
of the last place: those from `4 · significand - below` to
`4 · significand + 2`, with both ends if `closed`. -/
structure Interval where
  significand : Nat
  exponent : Int
  below : Nat
  closed : Bool

/-- The interval of a number.  The gap below it is half as wide as the gap above
if the number is the least of its binade, and a number with an even significand
also gets the ends. -/
def Interval.around (significand : Nat) (exponent : Int) (leastOfBinade : Bool) :
    Interval where
  significand := significand
  exponent := exponent
  below := if leastOfBinade then 1 else 2
  closed := significand % 2 == 0

/-- Whether the scaled point lies in an interval with the scaled ends `low` and
`high`. -/
def Interval.admits (interval : Interval) (low high point : Nat) : Bool :=
  if interval.closed then low ≤ point && point ≤ high
  else low < point && point < high

/-- The point of the grid `10 ^ exponent` that is nearest to the number, among
those of its two neighbours that lie in the interval.  Of two equally near
points it is the upper one. -/
def Interval.onGrid? (interval : Interval) (exponent : Int) : Option Nat :=
  -- One quarter of the last place and one step of the grid, both scaled.
  let binary := interval.exponent - 2
  let quarter := Nat.pow 2 binary.toNat * Nat.pow 10 (-exponent).toNat
  let step := Nat.pow 2 (-binary).toNat * Nat.pow 10 exponent.toNat
  let value := 4 * interval.significand * quarter
  let low := (4 * interval.significand - interval.below) * quarter
  let high := (4 * interval.significand + 2) * quarter
  let lower := value / step
  let admitted (digits : Nat) : Bool := interval.admits low high (digits * step)
  match admitted lower, admitted (lower + 1) with
  | false, false => none
  | true, false => some lower
  | false, true => some (lower + 1)
  | true, true =>
      if value - lower * step < (lower + 1) * step - value then some lower
      else some (lower + 1)

/-- The decimal on the coarsest of `count` grids from `10 ^ exponent` downwards
that has a point in the interval. -/
def Interval.coarsest? (interval : Interval) : Nat → Int → Option Scientific
  | 0, _ => none
  | count + 1, exponent =>
      match interval.onGrid? exponent with
      | some digits => some ⟨digits, exponent⟩
      | none => interval.coarsest? count (exponent - 1)

/-- The digits of a decimal in positional notation: no exponent, and no point
behind a whole number. -/
def Scientific.positional (decimal : Scientific) : String :=
  let digits := Nat.toDigits 10 decimal.digits
  let zeros (count : Nat) : List Char := List.replicate count '0'
  match decimal.exponent with
  | .ofNat trailing => String.ofList (digits ++ zeros trailing)
  | .negSucc fewer =>
      let places := fewer + 1
      let padded := zeros (places + 1 - digits.length) ++ digits
      let whole := padded.length - places
      String.ofList (padded.take whole ++ '.' :: padded.drop whole)

end ChartParsing.Decimal
