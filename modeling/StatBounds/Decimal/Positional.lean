import StatBounds.Binary64.Basic
import StatBounds.Decimal.Shortest

/-!
# Decimals and numbers as text

Numbers are written positionally with the fewest digits that read back, however large or small they
are: no exponent, no trailing zeros and no point on integers.
-/

namespace StatBounds

namespace Decimal

/-- The same decimal without zeros at the end of its digits. -/
def dropZeros (decimal : Decimal) : Decimal :=
  if decimal.digits ≠ 0 ∧ decimal.digits % 10 = 0 then
    dropZeros { digits := decimal.digits / 10, exponent := decimal.exponent + 1 }
  else
    decimal
termination_by decimal.digits
decreasing_by omega

/-- The positional text of a decimal whose last digit is not zero. The point stands before the
    fractional digits, with a zero in front if no other digit is there. -/
def positional (decimal : Decimal) : String :=
  let digits := Nat.toDigits 10 decimal.digits
  if decimal.exponent ≥ 0 then
    String.ofList (digits ++ List.replicate decimal.exponent.toNat '0')
  else
    let places := (-decimal.exponent).toNat
    let padded := List.replicate (places + 1 - digits.length) '0' ++ digits
    String.ofList (padded.take (padded.length - places) ++ '.' :: padded.drop (padded.length - places))

end Decimal

namespace Binary64

/-- The text of a number: the shortest decimal that reads back. Zero keeps its sign. -/
def text (x : Float) : String :=
  match x.toModel.unpack with
  | .notANumber => "NaN"
  | .infinity .positive => "inf"
  | .infinity .negative => "-inf"
  | .zero .positive => "0"
  | .zero .negative => "-0"
  | .finite sign significand exponent _ =>
      let decimal := Decimal.shortest (.ofSignificand significand exponent)
      let magnitude := decimal.dropZeros.positional
      match sign with
      | .positive => magnitude
      | .negative => "-" ++ magnitude

end Binary64

end StatBounds
