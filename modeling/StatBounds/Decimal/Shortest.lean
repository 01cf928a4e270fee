/-!
# The shortest decimal that reads back

A finite number stands for all the reals that round to it. `Decimal.shortest` finds the decimal with
the fewest digits among them, and of those with equally many digits the one nearest to the number.
All arithmetic is exact, on numerators over a common denominator.
-/

namespace StatBounds

-- Powers of integers are those of the core library.
attribute [local instance (2000)] instPowNat

/-- The decimal fraction `digits · 10 ^ exponent`. -/
structure Decimal where
  digits : Nat
  exponent : Int
  deriving Repr, DecidableEq

namespace Decimal

/-- A positive number together with the reals that round to it, as numerators over `denominator`.
    The ends of the range round to the number as well iff it is `closed`. -/
structure RoundingRange where
  low : Nat
  value : Nat
  high : Nat
  denominator : Nat
  closed : Bool
  deriving Repr, DecidableEq

namespace RoundingRange

/-- The range of `significand · 2 ^ exponent`, a positive number in canonical form: a significand
    below `2 ^ 53`, and one of exactly 53 bits unless the exponent is the least one.
    The ends lie half way to the neighbours. Below the smallest significand of 53 bits the numbers
    lie twice as close, so there the lower end is half as far. A tie goes to an even significand. -/
def ofSignificand (significand : Nat) (exponent : Int) : RoundingRange :=
  let scale := 2 ^ (exponent - 2).toNat
  let below := if significand = 2 ^ (52 : Nat) ∧ exponent > -1074 then 1 else 2
  { low := (4 * significand - below) * scale
    value := 4 * significand * scale
    high := (4 * significand + 2) * scale
    denominator := 2 ^ (2 - exponent).toNat
    closed := significand % 2 = 0 }

def contains (range : RoundingRange) (decimal : Decimal) : Bool :=
  let point := decimal.digits * 10 ^ decimal.exponent.toNat * range.denominator
  let scale := 10 ^ (-decimal.exponent).toNat
  if range.closed then
    range.low * scale ≤ point && point ≤ range.high * scale
  else
    range.low * scale < point && point < range.high * scale

/-- The decimal in the range among the two that are next to the number on the grid of multiples of
    `10 ^ exponent`. If both are in the range the nearer one is taken, and the greater one of a tie. -/
def onGrid? (range : RoundingRange) (exponent : Int) : Option Decimal :=
  let step := 10 ^ exponent.toNat * range.denominator
  let value := range.value * 10 ^ (-exponent).toNat
  let lower : Decimal := { digits := value / step, exponent }
  let upper : Decimal := { digits := value / step + 1, exponent }
  match range.contains lower, range.contains upper with
  | true, true => if 2 * (value % step) < step then some lower else some upper
  | true, false => some lower
  | false, true => some upper
  | false, false => none

/-- The exponent `e` with `10 ^ (e - 1) ≤ value < 10 ^ e`. Every positive number exceeds
    `10 ^ (-400)`, so the digits of its integral multiple by `10 ^ 400` tell it. -/
def magnitude (range : RoundingRange) : Int :=
  (Nat.toDigits 10 (range.value * 10 ^ (400 : Nat) / range.denominator)).length - 400

/-- The number itself as a decimal: a denominator `2 ^ k` divides `10 ^ k`. -/
def exact (range : RoundingRange) : Decimal :=
  let places := range.denominator.log2
  { digits := range.value * 5 ^ places, exponent := -places }

end RoundingRange

/-- The shortest decimal in a range: grids are tried from the coarsest on, those of 1 to 17 digits.
    Seventeen digits always tell two neighbours apart, so the exact value is never needed. -/
def shortest (range : RoundingRange) : Decimal :=
  let magnitude := range.magnitude
  let grids := (List.range 17).map fun (n : Nat) => magnitude - (n + 1)
  (grids.findSome? range.onGrid?).getD range.exact

end Decimal

end StatBounds
