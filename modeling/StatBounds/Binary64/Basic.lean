/-!
# Binary64 numbers: order, neighbours and integers

The numbers of this library are core's `Float`, whose operations are plain definitions over 64-bit
patterns. This module adds what interval arithmetic needs of them: the larger and the smaller of two,
the neighbours of a number in the numeric order, and the way to and from the integers.
-/

namespace StatBounds.Binary64

-- Powers of integers are those of the core library.
attribute [local instance (2000)] instPowNat

/-- The positive infinity. -/
def infinity : Float := .ofBits 0x7ff0000000000000

/-- The larger of two numbers. A NaN loses against a number; of two equal ones the first is taken. -/
def larger (x y : Float) : Float :=
  if x.isNaN || x < y then y else x

/-- The smaller of two numbers. A NaN loses against a number; of two equal ones the first is taken. -/
def smaller (x y : Float) : Float :=
  if x.isNaN || y < x then y else x

/-- The least number above `x`. There is none above NaN and the positive infinity, which stay as they
    are. The patterns of one sign are ordered like their numbers, so the neighbour is one pattern on;
    both zeros step to the smallest positive number. -/
def next (x : Float) : Float :=
  if x.isNaN || x == infinity then x
  else if x == 0.0 then .ofBits 1
  else if x > 0.0 then .ofBits (x.toBits + 1)
  else .ofBits (x.toBits - 1)

/-- The greatest number below `x`. Negation turns the order around, so it is found by `next`. -/
def previous (x : Float) : Float :=
  -next (-x)

/-- The number nearest to an integer, ties to the even neighbour. Machine words have a conversion of
    their own, which is the same function. -/
def ofInt (n : Int) : Float :=
  if 0 ≤ n ∧ n < 2 ^ (64 : Nat) then n.toNat.toUInt64.toFloat else .ofModel (.ofInt n)

/-- Every integer is rounded in the same way, word or not. -/
theorem ofInt_eq_ofModel (n : Int) : ofInt n = .ofModel (.ofInt n) := by
  unfold ofInt
  split
  · next word =>
      obtain ⟨k, rfl⟩ := Int.eq_ofNat_of_zero_le word.1
      have small : k < 2 ^ 64 := by omega
      have same : k.toUInt64.toNat = k := by
        simpa using Nat.mod_eq_of_lt small
      simp only [UInt64.toFloat, Float.Model.ofUInt64, Float.Model.UnpackedFloat.ofUInt64,
        Float.Model.UnpackedFloat.ofNat, Float.Model.ofInt, Int.toNat_natCast, same]
  · rfl

/-- The number nearest to a natural number, ties to the even neighbour. -/
def ofNat (n : Nat) : Float :=
  ofInt n

/-- The integer that a number equals, if it equals one. -/
def toInt? (x : Float) : Option Int :=
  match x.toModel.unpack with
  | .zero _ => some 0
  | .finite sign significand exponent _ =>
      if exponent ≥ 0 then
        some (sign.apply (significand * 2 ^ exponent.toNat))
      else if significand % 2 ^ (-exponent).toNat = 0 then
        some (sign.apply (significand / 2 ^ (-exponent).toNat))
      else
        none
  | _ => none

/-- The greatest integer that is not above a number. Numbers with a great exponent are integers already. -/
def floor (x : Float) : Float :=
  match x.toModel.unpack with
  | .finite sign significand exponent _ =>
      if exponent < 0 then ofInt (sign.apply significand / (2 ^ (-exponent).toNat : Nat)) else x
  | _ => x

/-- The least integer that is not below a number. -/
def ceiling (x : Float) : Float :=
  -floor (-x)

/-- The nearest integer that fits in 64 bits with a sign. -/
def clampInt64 (n : Int) : Int :=
  max (-2 ^ (63 : Nat)) (min n (2 ^ (63 : Nat) - 1))

end StatBounds.Binary64
