import StatBounds.Proofs.Binary64.Neighbours
import StatBounds.Proofs.Decimal.Reading

/-! # Numbers are told apart by their text

The rounding ranges of two neighbours meet at one end only, which rounds to the neighbour with the even significand. So
a decimal lies in the range of one number, and the text of a number, which is read as a decimal in its range, is the
text of no other one. A sign is written in front of the text of the magnitude.
-/

namespace StatBounds.Binary64

open Decimal (RoundingRange)
open Float.Model (Format)
open Float.Model.UnpackedFloat (Sign unpackMantissa unpackExponent packedNaN)

/-! ## Patterns and numbers -/

theorem eq_of_toBits {x y : Float} (same : x.toBits.toBitVec = y.toBits.toBitVec) : x = y := by
  obtain ⟨⟨⟨bitsX⟩, validX⟩⟩ := x
  obtain ⟨⟨⟨bitsY⟩, validY⟩⟩ := y
  obtain rfl : bitsX = bitsY := same
  rfl

theorem toBits_of_isNaN {x : Float} (nan : x.isNaN = true) : x.toBits.toBitVec = packedNaN Format.binary64 := by
  let exponent : BitVec 11 := @unpackExponent Format.binary64 x.toBits.toBitVec
  let fraction : BitVec 52 := @unpackMantissa Format.binary64 x.toBits.toBitVec
  have parts : exponent = -1#11 ∧ fraction ≠ 0#52 := by
    change Float.Model.UnpackedFloat.isNaN
      (if exponent = -1#11 then if fraction = 0#52 then .infinity _ else .notANumber
        else if exponent = 0#11 then if h : fraction = 0#52 then .zero _ else .finite _ fraction.toNat _ _
        else .finite _ (1#1 ++ fraction).toNat _ _) = true at nan
    split_ifs at nan with top none
    · cases nan
    · exact ⟨top, none⟩
    · cases nan
    · cases nan
    · cases nan
  exact x.toModel.valid.eq_packedNaN parts.1 parts.2

/-- There is one NaN. -/
theorem eq_of_isNaN {x y : Float} (nanX : x.isNaN = true) (nanY : y.isNaN = true) : x = y :=
  eq_of_toBits ((toBits_of_isNaN nanX).trans (toBits_of_isNaN nanY).symm)

theorem decode_cases {n : Nat} (small : n ≤ greatest) : (decode n = .zero .positive ∨ decode n = .infinity .positive) ∨
    ∃ significand exponent positive, decode n = .finite .positive significand exponent positive := by
  rcases eq_or_lt_of_le small with rfl | less
  · exact .inl (.inr decode_greatest)
  · rcases Nat.eq_zero_or_pos n with rfl | positive
    · exact .inl (.inl rfl)
    · rcases Nat.lt_or_ge n (2 ^ 52) with subnormal | normal
      · exact .inr ⟨_, _, _, decode_subnormal positive subnormal⟩
      · exact .inr ⟨_, _, _, decode_normal normal less⟩

theorem neg_decode_ne_decode {m n : Nat} (smallM : m ≤ greatest) (smallN : n ≤ greatest) :
    (decode m).neg ≠ decode n := by
  intro same
  rcases decode_cases smallM with (first | first) | ⟨_, _, _, first⟩ <;>
    rcases decode_cases smallN with (second | second) | ⟨_, _, _, second⟩ <;>
    rw [first, second] at same <;> cases same

theorem valueOf_decode_lt {m n : Nat} (less : m < n) (small : n ≤ greatest) :
    valueOf (decode m) < valueOf (decode n) :=
  (valueOf_decode_lt_succ (by omega)).trans_le (valueOf_decode_mono less small)

theorem decode_injective {m n : Nat} (smallM : m ≤ greatest) (smallN : n ≤ greatest) (same : decode m = decode n) :
    m = n := by
  rcases lt_trichotomy m n with less | equal | more
  · exact absurd (congrArg valueOf same) (valueOf_decode_lt less smallN).ne
  · exact equal
  · exact absurd (congrArg valueOf same) (valueOf_decode_lt more smallM).ne'

theorem exists_decode {x : Float} (number : IsNumber x) : ∃ n ≤ greatest,
    (x.toBits.toBitVec = pattern .positive n ∧ x.toModel.unpack = decode n) ∨
      (x.toBits.toBitVec = pattern .negative n ∧ x.toModel.unpack = (decode n).neg) := by
  obtain ⟨n, small, ⟨bits, -⟩ | ⟨bits, -⟩⟩ := exists_magnitude number
  · exact ⟨n, small, .inl ⟨bits, congrArg (Float.Model.UnpackedFloat.unpack Format.binary64) bits⟩⟩
  · refine ⟨n, small, .inr ⟨bits, ?_⟩⟩
    rw [← unpack_pattern_negative, ← bits]
    rfl

theorem unpacked_neg_neg (u : Unpacked) : u.neg.neg = u := by
  rcases u with (_ | _) | _ | (_ | _) | ⟨_ | _, _, _, _⟩ <;> rfl

theorem unpack_injective {x y : Float} (same : x.toModel.unpack = y.toModel.unpack) : x = y := by
  have alike : x.isNaN = y.isNaN := congrArg Float.Model.UnpackedFloat.isNaN same
  cases nan : x.isNaN with
  | true => exact eq_of_isNaN nan (alike ▸ nan)
  | false =>
      obtain ⟨m, smallM, ⟨bitsX, partsX⟩ | ⟨bitsX, partsX⟩⟩ := exists_decode nan <;>
        obtain ⟨n, smallN, ⟨bitsY, partsY⟩ | ⟨bitsY, partsY⟩⟩ := exists_decode (alike ▸ nan : y.isNaN = false) <;>
        rw [partsX, partsY] at same
      · exact eq_of_toBits (by rw [bitsX, bitsY, decode_injective smallM smallN same])
      · exact absurd same.symm (neg_decode_ne_decode smallN smallM)
      · exact absurd same (neg_decode_ne_decode smallM smallN)
      · have mirrored := congrArg Float.Model.UnpackedFloat.neg same
        rw [unpacked_neg_neg, unpacked_neg_neg] at mirrored
        exact eq_of_toBits (by rw [bitsX, bitsY, decode_injective smallM smallN mirrored])

@[simp] theorem float_neg_neg (x : Float) : -(-x) = x := by
  apply unpack_injective
  rw [unpack_neg, unpack_neg, unpacked_neg_neg]

/-! ## The rounding range of a magnitude -/

def significand (n : Nat) : Nat :=
  if n < 2 ^ 52 then n else 2 ^ 52 + n % 2 ^ 52

/-- The exponent of a magnitude. -/
def exponent (n : Nat) : Int :=
  if n < 2 ^ 52 then -1074 else (n / 2 ^ 52 : Nat) - 1075

theorem significand_pos {n : Nat} (positive : 0 < n) : 0 < significand n := by
  unfold significand
  split_ifs <;> omega

theorem decode_finite {n : Nat} (positive : 0 < n) (small : n < greatest) :
    decode n = .finite .positive (significand n) (exponent n) (significand_pos positive) := by
  rcases Nat.lt_or_ge n (2 ^ 52) with subnormal | normal
  · rw [decode_subnormal positive subnormal]
    simp only [significand, exponent, subnormal, if_true]
  · rw [decode_normal normal small]
    simp only [significand, exponent, not_lt.2 normal, if_false]

def rounding (n : Nat) : RoundingRange :=
  .ofSignificand (significand n) (exponent n)

/-- The lower end of the range of a magnitude. -/
def lowerEnd (n : Nat) : ℚ :=
  (rounding n).low / (rounding n).denominator

/-- The upper end of the range of a magnitude. -/
def upperEnd (n : Nat) : ℚ :=
  (rounding n).high / (rounding n).denominator

/-- A tie goes to the magnitude that is even. -/
theorem contains_rounding_iff {n : Nat} {decimal : Decimal} : (rounding n).contains decimal = true ↔
    if n % 2 = 0 then
      lowerEnd n ≤ decimal.value ∧ decimal.value ≤ upperEnd n
    else
      lowerEnd n < decimal.value ∧ decimal.value < upperEnd n := by
  have parity : significand n % 2 = n % 2 := by
    unfold significand
    split_ifs <;> omega
  have closed : (rounding n).closed = decide (n % 2 = 0) := by
    rw [rounding, RoundingRange.ofSignificand, parity]
  have positive : 0 < (rounding n).denominator := RoundingRange.denominator_pos _ _
  rw [RoundingRange.contains_iff positive, closed]
  simp only [decide_eq_true_eq, lowerEnd, upperEnd]

theorem lowerEnd_succ {n : Nat} (positive : 0 < n) : lowerEnd (n + 1) = upperEnd n := by
  rw [lowerEnd, upperEnd, rounding, rounding, RoundingRange.low_ofSignificand, RoundingRange.high_ofSignificand]
  have step : (exponent (n + 1) = exponent n ∧ 4 * significand (n + 1) -
        RoundingRange.below (significand (n + 1)) (exponent (n + 1)) = 4 * significand n + 2) ∨
      (exponent (n + 1) = exponent n + 1 ∧ 2 * (4 * significand (n + 1) -
        RoundingRange.below (significand (n + 1)) (exponent (n + 1))) = 4 * significand n + 2) := by
    unfold RoundingRange.below significand exponent
    split_ifs <;> omega
  rcases step with ⟨same, numerator⟩ | ⟨next, numerator⟩
  · rw [numerator, same]
  · rw [← numerator, next, show exponent n + 1 - 2 = 1 + (exponent n - 2) by ring, zpow_add₀ (by norm_num), zpow_one]
    push_cast
    ring

theorem lowerEnd_lt_upperEnd (n : Nat) : lowerEnd n < upperEnd n := by
  rw [lowerEnd, upperEnd, rounding, RoundingRange.low_ofSignificand, RoundingRange.high_ofSignificand]
  have unit : (0 : ℚ) < 2 ^ (exponent n - 2) := by positivity
  gcongr
  omega

theorem lowerEnd_pos {n : Nat} (positive : 0 < n) : 0 < lowerEnd n := by
  rw [lowerEnd, rounding, RoundingRange.low_ofSignificand]
  have unit : (0 : ℚ) < 2 ^ (exponent n - 2) := by positivity
  have some := significand_pos positive
  have most : RoundingRange.below (significand n) (exponent n) ≤ 2 := by
    unfold RoundingRange.below
    split_ifs <;> decide
  have numerator : (0 : ℚ) < (4 * significand n - RoundingRange.below (significand n) (exponent n) : ℕ) := by
    exact_mod_cast (by omega : 0 < 4 * significand n - RoundingRange.below (significand n) (exponent n))
  positivity

theorem lowerEnd_lt {m n : Nat} (positive : 0 < m) (less : m < n) : lowerEnd m < lowerEnd n := by
  have step {k : Nat} (positive : 0 < k) : lowerEnd k < lowerEnd (k + 1) := by
    rw [lowerEnd_succ positive]
    exact lowerEnd_lt_upperEnd k
  induction n, less using Nat.le_induction with
  | base => exact step positive
  | succ n above ih => exact ih.trans (step (by omega))

theorem value_ne_of_contains {m n : Nat} (positive : 0 < m) (less : m < n) {d e : Decimal}
    (inM : (rounding m).contains d = true) (inN : (rounding n).contains e = true) : d.value ≠ e.value := by
  intro same
  rw [contains_rounding_iff] at inM inN
  have border := lowerEnd_succ positive
  rcases Nat.lt_or_ge (m + 1) n with apart | next
  · have beyond := lowerEnd_lt (by omega) apart
    split_ifs at inM inN <;> linarith [inM.2, inN.1]
  · -- Of two neighbours one is odd, and the end where they meet is not in its range.
    obtain rfl : n = m + 1 := by omega
    split_ifs at inM inN
    · omega
    · linarith [inM.2, inN.1]
    · linarith [inM.2, inN.1]
    · linarith [inM.2, inN.1]

/-! ## The text of a magnitude -/

def decimalOf (n : Nat) : Decimal :=
  if n = 0 then { digits := 0, exponent := 0 } else (Decimal.shortest (rounding n)).dropZeros

theorem decimalOf_value_zero : (decimalOf 0).value = 0 := by
  simp [decimalOf, Decimal.value]

theorem exists_contains {n : Nat} (positive : 0 < n) :
    ∃ decimal, (rounding n).contains decimal = true ∧ (decimalOf n).value = decimal.value := by
  refine ⟨Decimal.shortest (rounding n), RoundingRange.contains_shortest
    (RoundingRange.contains_exact (significand_pos positive) _), ?_⟩
  rw [decimalOf, if_neg positive.ne', Decimal.value_dropZeros]

theorem decimalOf_value_pos {n : Nat} (positive : 0 < n) : 0 < (decimalOf n).value := by
  obtain ⟨decimal, inside, same⟩ := exists_contains positive
  have least := lowerEnd_pos positive
  rw [contains_rounding_iff] at inside
  rw [same]
  split_ifs at inside <;> linarith [inside.1]

theorem decimalOf_value_ne {m n : Nat} (less : m < n) : (decimalOf m).value ≠ (decimalOf n).value := by
  rcases Nat.eq_zero_or_pos m with rfl | positive
  · rw [decimalOf_value_zero]
    exact (decimalOf_value_pos less).ne
  · obtain ⟨d, inM, sameD⟩ := exists_contains positive
    obtain ⟨e, inN, sameE⟩ := exists_contains (positive.trans less)
    rw [sameD, sameE]
    exact value_ne_of_contains positive less inM inN

def magnitudeText (n : Nat) : String :=
  if n = greatest then "inf" else (decimalOf n).positional

theorem text_decode {x : Float} {n : Nat} (small : n ≤ greatest) (parts : x.toModel.unpack = decode n) :
    text x = magnitudeText n := by
  unfold text
  rw [parts, magnitudeText]
  rcases eq_or_lt_of_le small with rfl | less
  · rw [if_pos rfl, decode_greatest]
  · rw [if_neg less.ne]
    rcases Nat.eq_zero_or_pos n with rfl | positive
    · decide +kernel
    · rw [decode_finite positive less, decimalOf, if_neg positive.ne']
      rfl

theorem text_neg_decode {x : Float} {n : Nat} (small : n ≤ greatest) (parts : x.toModel.unpack = (decode n).neg) :
    text x = "-" ++ magnitudeText n := by
  unfold text
  rw [parts, magnitudeText]
  rcases eq_or_lt_of_le small with rfl | less
  · rw [if_pos rfl, decode_greatest]
    rfl
  · rw [if_neg less.ne]
    rcases Nat.eq_zero_or_pos n with rfl | positive
    · decide +kernel
    · rw [decode_finite positive less, decimalOf, if_neg positive.ne']
      rfl

/-- A magnitude is written with a digit first, or as the infinity. -/
theorem magnitudeText_chars (n : Nat) :
    (∃ c rest, (magnitudeText n).toList = c :: rest ∧ (c.isDigit = true ∨ c = 'i')) ∧
      ∀ c ∈ (magnitudeText n).toList, c.isDigit = true ∨ c ∈ ['.', 'i', 'n', 'f'] := by
  unfold magnitudeText
  split_ifs
  · exact ⟨⟨'i', ['n', 'f'], rfl, .inr rfl⟩, by simp⟩
  · obtain ⟨⟨c, rest, same, digit⟩, chars⟩ := Decimal.positional_chars (decimalOf n)
    exact ⟨⟨c, rest, same, .inl digit⟩, fun c member => (chars c member).imp_right fun point => by simp [point]⟩

theorem positional_ne_inf (decimal : Decimal) : decimal.positional ≠ "inf" := by
  intro same
  obtain ⟨⟨c, rest, chars, digit⟩, -⟩ := Decimal.positional_chars decimal
  rw [same] at chars
  obtain ⟨rfl, -⟩ := List.cons.inj (chars : ['i', 'n', 'f'] = c :: rest)
  exact absurd digit (by decide)

theorem magnitudeText_injective {m n : Nat} (same : magnitudeText m = magnitudeText n) : m = n := by
  unfold magnitudeText at same
  split_ifs at same with top top'
  · rw [top, top']
  · exact absurd same.symm (positional_ne_inf _)
  · exact absurd same (positional_ne_inf _)
  · have read : (decimalOf m).value = (decimalOf n).value := by
      rw [← Decimal.read_positional, ← Decimal.read_positional, same]
    rcases lt_trichotomy m n with less | equal | more
    · exact absurd read (decimalOf_value_ne less)
    · exact equal
    · exact absurd read.symm (decimalOf_value_ne more)

/-! ## The text of a number -/

/-- A text that begins like that of a number without a sign, and whose characters are those of numbers. -/
structure Unsigned (cs : List Char) : Prop where
  first : ∃ c rest, cs = c :: rest ∧ (c.isDigit = true ∨ c = 'i' ∨ c = 'N')
  chars : ∀ c ∈ cs, c.isDigit = true ∨ c ∈ ['.', 'i', 'n', 'f', 'N', 'a']

theorem Unsigned.ne_minus {cs rest : List Char} (unsigned : Unsigned cs) : cs ≠ '-' :: rest := by
  rintro rfl
  obtain ⟨c, _, same, first⟩ := unsigned.first
  obtain ⟨rfl, -⟩ := List.cons.inj same
  exact absurd first (by decide)

theorem unsigned_magnitudeText (n : Nat) : Unsigned (magnitudeText n).toList := by
  obtain ⟨⟨c, rest, same, first⟩, chars⟩ := magnitudeText_chars n
  exact ⟨⟨c, rest, same, first.imp_right .inl⟩, fun c member => (chars c member).imp_right fun letter => by
    simp only [List.mem_cons, List.not_mem_nil, or_false] at letter ⊢
    tauto⟩

theorem text_of_isNaN {x : Float} (nan : x.isNaN = true) : text x = "NaN" := by
  change x.toModel.unpack.isNaN = true at nan
  unfold text
  cases parts : x.toModel.unpack <;> rw [parts] at nan <;> first | rfl | cases nan

theorem isNaN_of_text {x : Float} (written : text x = "NaN") : x.isNaN = true := by
  by_contra number
  obtain ⟨n, small, ⟨-, parts⟩ | ⟨-, parts⟩⟩ := exists_decode (Bool.eq_false_iff.2 number)
  · obtain ⟨⟨c, rest, same, first⟩, -⟩ := magnitudeText_chars n
    rw [← text_decode small parts, written] at same
    obtain ⟨rfl, -⟩ := List.cons.inj (same : ['N', 'a', 'N'] = c :: rest)
    exact absurd first (by decide)
  · rw [text_neg_decode small parts] at written
    have letters := congrArg String.toList written
    rw [String.toList_append] at letters
    exact absurd (List.cons.inj (letters : '-' :: (magnitudeText n).toList = ['N', 'a', 'N'])).1 (by decide)

/-- The text of a number has no sign, or it is a minus sign before the text of the negated number. -/
theorem text_cases (x : Float) :
    Unsigned (text x).toList ∨ (Unsigned (text (-x)).toList ∧ (text x).toList = '-' :: (text (-x)).toList) := by
  cases nan : x.isNaN with
  | true =>
      rw [text_of_isNaN nan]
      exact .inl ⟨⟨'N', ['a', 'N'], rfl, by simp⟩, by simp⟩
  | false =>
      obtain ⟨n, small, ⟨-, parts⟩ | ⟨-, parts⟩⟩ := exists_decode nan
      · rw [text_decode small parts]
        exact .inl (unsigned_magnitudeText n)
      · have mirrored : (-x).toModel.unpack = decode n := by
          rw [unpack_neg, parts, unpacked_neg_neg]
        rw [text_neg_decode small parts, text_decode small mirrored]
        exact .inr ⟨unsigned_magnitudeText n, by rw [String.toList_append]; rfl⟩

theorem minus_append_toList (s : String) : ("-" ++ s).toList = '-' :: s.toList := by
  rw [String.toList_append]
  rfl

/-- No two numbers have the same text, and neither do NaN and a number. -/
theorem text_injective : Function.Injective text := by
  intro x y same
  cases nan : x.isNaN with
  | true => exact eq_of_isNaN nan (isNaN_of_text (same ▸ text_of_isNaN nan))
  | false =>
      have nan' : y.isNaN = false := by
        by_contra other
        rw [isNaN_of_text (same.trans (text_of_isNaN (Bool.not_eq_false _ ▸ other)))] at nan
        cases nan
      obtain ⟨m, smallM, ⟨-, partsX⟩ | ⟨-, partsX⟩⟩ := exists_decode nan <;>
        obtain ⟨n, smallN, ⟨-, partsY⟩ | ⟨-, partsY⟩⟩ := exists_decode nan'
      · rw [text_decode smallM partsX, text_decode smallN partsY] at same
        exact unpack_injective (by rw [partsX, partsY, magnitudeText_injective same])
      · rw [text_decode smallM partsX, text_neg_decode smallN partsY] at same
        exact absurd (same ▸ minus_append_toList _) (unsigned_magnitudeText m).ne_minus
      · rw [text_neg_decode smallM partsX, text_decode smallN partsY] at same
        exact absurd (same ▸ minus_append_toList _) (unsigned_magnitudeText n).ne_minus
      · rw [text_neg_decode smallM partsX, text_neg_decode smallN partsY, String.append_right_inj] at same
        exact unpack_injective (by rw [partsX, partsY, magnitudeText_injective same])

end StatBounds.Binary64
