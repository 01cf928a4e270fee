import Mathlib
import StatBounds.Decimal.Positional

/-! # Decimals are read back from their text

Written positionally, a decimal keeps its value: the digits before and after the point, taken together, are those of
its digits and zeros, and the number of those after the point is its scale. The decimal that is found in a rounding
range has its value in the range, since each candidate is compared with the ends before it is taken.
-/

namespace StatBounds.Decimal

/-- The rational number that a decimal stands for. -/
def value (decimal : Decimal) : ℚ :=
  decimal.digits * 10 ^ decimal.exponent

theorem zpow_eq_div {b : ℚ} (nonzero : b ≠ 0) (e : ℤ) : b ^ e = b ^ e.toNat / b ^ (-e).toNat := by
  have parts : e = (e.toNat : ℤ) - ((-e).toNat : ℤ) := by omega
  conv_lhs => rw [parts]
  rw [zpow_sub₀ nonzero, zpow_natCast, zpow_natCast]

theorem value_dropZeros (decimal : Decimal) : decimal.dropZeros.value = decimal.value := by
  fun_induction dropZeros decimal with
  | case1 decimal some ih =>
      have whole : decimal.digits = decimal.digits / 10 * 10 := by omega
      rw [ih, value, value, zpow_add₀ (by norm_num)]
      conv_rhs => rw [whole]
      push_cast
      ring
  | case2 => rfl

/-! ## Digits around a point -/

/-- The number that digits with at most one point among them stand for. -/
def read (cs : List Char) : ℚ :=
  let whole := cs.takeWhile (· ≠ '.')
  let places := (cs.dropWhile (· ≠ '.')).drop 1
  Nat.ofDigitChars 10 (whole ++ places) 0 / 10 ^ places.length

theorem ne_point {c : Char} (digit : c.isDigit = true) : decide (c ≠ '.') = true := by
  rw [decide_eq_true_eq]
  rintro rfl
  exact absurd digit (by decide)

theorem read_whole {cs : List Char} (digits : ∀ c ∈ cs, c.isDigit = true) : read cs = Nat.ofDigitChars 10 cs 0 := by
  have noPoint : ∀ c ∈ cs, decide (c ≠ '.') = true := fun c member => ne_point (digits c member)
  simp only [read, List.takeWhile_eq_self_iff.2 noPoint, List.dropWhile_eq_nil_iff.2 noPoint, List.drop_nil,
    List.append_nil, List.length_nil, pow_zero, div_one]

theorem read_point {whole : List Char} (digits : ∀ c ∈ whole, c.isDigit = true) (places : List Char) :
    read (whole ++ '.' :: places) = Nat.ofDigitChars 10 (whole ++ places) 0 / 10 ^ places.length := by
  have noPoint : ∀ c ∈ whole, decide (c ≠ '.') = true := fun c member => ne_point (digits c member)
  simp only [read, List.takeWhile_append_of_pos noPoint, List.dropWhile_append_of_pos noPoint]
  simp

/-- The digits of a decimal, with zeros in front up to one digit before the point. -/
def padded (decimal : Decimal) : List Char :=
  List.replicate ((-decimal.exponent).toNat + 1 - (Nat.toDigits 10 decimal.digits).length) '0' ++
    Nat.toDigits 10 decimal.digits

theorem isDigit_toDigits {n : Nat} {c : Char} (member : c ∈ Nat.toDigits 10 n) : c.isDigit = true :=
  Nat.isDigit_of_mem_toDigits (by decide) (by decide) member

theorem isDigit_padded (decimal : Decimal) : ∀ c ∈ decimal.padded, c.isDigit = true := by
  intro c member
  rcases List.mem_append.1 member with zero | digit
  · rw [List.eq_of_mem_replicate zero]
    decide
  · exact isDigit_toDigits digit

theorem toList_positional (decimal : Decimal) : decimal.positional.toList =
    if decimal.exponent ≥ 0 then
      Nat.toDigits 10 decimal.digits ++ List.replicate decimal.exponent.toNat '0'
    else
      decimal.padded.take (decimal.padded.length - (-decimal.exponent).toNat) ++
        '.' :: decimal.padded.drop (decimal.padded.length - (-decimal.exponent).toNat) := by
  unfold positional
  split_ifs <;> rw [String.toList_ofList]
  rfl

theorem read_positional (decimal : Decimal) : read decimal.positional.toList = decimal.value := by
  rw [toList_positional]
  split_ifs with whole
  · obtain ⟨n, shift⟩ := Int.eq_ofNat_of_zero_le whole
    rw [read_whole, Nat.ofDigitChars_append, Nat.ofDigitChars_ten_toDigits, Nat.ofDigitChars_replicate_zero, value,
      shift, Int.toNat_natCast, zpow_natCast]
    · push_cast
      ring
    · intro c member
      rcases List.mem_append.1 member with digit | zero
      · exact isDigit_toDigits digit
      · rw [List.eq_of_mem_replicate zero]
        decide
  · obtain ⟨n, shift⟩ : ∃ n : ℕ, decimal.exponent = -(n : ℤ) := ⟨(-decimal.exponent).toNat, by omega⟩
    have places : (-decimal.exponent).toNat = n := by omega
    have room : n ≤ decimal.padded.length := by
      rw [padded, List.length_append, List.length_replicate, places]
      omega
    rw [read_point fun c member => isDigit_padded decimal c (List.mem_of_mem_take member), List.take_append_drop,
      List.length_drop, places, Nat.sub_sub_self room, padded, Nat.ofDigitChars_append,
      Nat.ofDigitChars_replicate_zero, mul_zero, Nat.ofDigitChars_ten_toDigits, value, shift, zpow_neg, zpow_natCast,
      div_eq_mul_inv]

theorem positional_chars (decimal : Decimal) :
    (∃ c cs, decimal.positional.toList = c :: cs ∧ c.isDigit = true) ∧
      ∀ c ∈ decimal.positional.toList, c.isDigit = true ∨ c = '.' := by
  rw [toList_positional]
  split_ifs with whole
  · constructor
    · obtain ⟨c, cs, digits⟩ := List.exists_cons_of_ne_nil (Nat.toDigits_ne_nil (n := decimal.digits) (b := 10))
      rw [digits]
      exact ⟨c, _, rfl, isDigit_toDigits (n := decimal.digits) (by simp [digits])⟩
    · intro c member
      rcases List.mem_append.1 member with digit | zero
      · exact .inl (isDigit_toDigits digit)
      · rw [List.eq_of_mem_replicate zero]
        exact .inl (by decide)
  · have digits : ∀ c ∈ decimal.padded.take (decimal.padded.length - (-decimal.exponent).toNat), c.isDigit = true :=
      fun c member => isDigit_padded decimal c (List.mem_of_mem_take member)
    have some : decimal.padded.take (decimal.padded.length - (-decimal.exponent).toNat) ≠ [] := by
      rw [ne_eq, ← List.length_eq_zero_iff, List.length_take, padded, List.length_append, List.length_replicate]
      omega
    constructor
    · obtain ⟨c, cs, first⟩ := List.exists_cons_of_ne_nil some
      rw [first] at digits ⊢
      exact ⟨c, _, rfl, digits c (by simp)⟩
    · intro c member
      rcases List.mem_append.1 member with before | after
      · exact .inl (digits c before)
      · rcases List.mem_cons.1 after with point | after
        · exact .inr point
        · exact .inl (isDigit_padded decimal c (List.mem_of_mem_drop after))

/-! ## Decimals in a rounding range -/

namespace RoundingRange

variable {range : RoundingRange} {decimal : Decimal}

/-- A range contains a decimal if its value lies between the ends, which count if the range is closed. -/
theorem contains_iff (positive : 0 < range.denominator) : range.contains decimal = true ↔
    if range.closed then
      (range.low : ℚ) / range.denominator ≤ decimal.value ∧ decimal.value ≤ range.high / range.denominator
    else
      (range.low : ℚ) / range.denominator < decimal.value ∧ decimal.value < range.high / range.denominator := by
  have below : (0 : ℚ) < range.denominator := by exact_mod_cast positive
  have above : (0 : ℚ) < 10 ^ (-decimal.exponent).toNat := by positivity
  have scaled : decimal.value =
      (decimal.digits * 10 ^ decimal.exponent.toNat : ℚ) / 10 ^ (-decimal.exponent).toNat := by
    rw [Decimal.value, zpow_eq_div (by norm_num), mul_div_assoc]
  rw [scaled, div_le_div_iff₀ below above, div_le_div_iff₀ above below, div_lt_div_iff₀ below above,
    div_lt_div_iff₀ above below]
  unfold contains
  dsimp only
  split_ifs
  · rw [Bool.and_eq_true, decide_eq_true_eq, decide_eq_true_eq]
    norm_cast
  · rw [Bool.and_eq_true, decide_eq_true_eq, decide_eq_true_eq]
    norm_cast

theorem contains_of_onGrid? {exponent : ℤ} (found : range.onGrid? exponent = some decimal) :
    range.contains decimal = true := by
  unfold onGrid? at found
  dsimp only at found
  split at found
  · rename_i lower upper
    split_ifs at found
    · exact Option.some.inj found ▸ lower
    · exact Option.some.inj found ▸ upper
  · rename_i lower _
    exact Option.some.inj found ▸ lower
  · rename_i _ upper
    exact Option.some.inj found ▸ upper
  · cases found

/-- What is found on a grid is in the range, and so is the exact value. -/
theorem contains_shortest (exact : range.contains range.exact = true) : range.contains (shortest range) = true := by
  rw [shortest]
  cases found : ((List.range 17).map fun (n : Nat) => range.magnitude - (n + 1)).findSome? range.onGrid? with
  | none => exact exact
  | some decimal =>
      obtain ⟨exponent, -, onGrid⟩ := List.exists_of_findSome?_eq_some found
      exact contains_of_onGrid? onGrid

/-! ## The range of a number -/

/-- How far below a significand its range begins, in quarters of a unit. -/
def below (significand : Nat) (exponent : Int) : Nat :=
  if significand = 2 ^ 52 ∧ exponent > -1074 then 1 else 2

theorem denominator_pos (significand : Nat) (exponent : Int) : 0 < (ofSignificand significand exponent).denominator :=
  Nat.two_pow_pos _

theorem quarters (exponent : ℤ) (n : ℕ) :
    ((n * 2 ^ (exponent - 2).toNat : ℕ) : ℚ) / ((2 ^ (2 - exponent).toNat : ℕ) : ℚ) = n * 2 ^ (exponent - 2) := by
  rw [zpow_eq_div (by norm_num) (exponent - 2), neg_sub]
  push_cast
  ring

theorem low_ofSignificand (significand : Nat) (exponent : Int) :
    ((ofSignificand significand exponent).low : ℚ) / (ofSignificand significand exponent).denominator =
      (4 * significand - below significand exponent : ℕ) * 2 ^ (exponent - 2) :=
  quarters exponent _

theorem high_ofSignificand (significand : Nat) (exponent : Int) :
    ((ofSignificand significand exponent).high : ℚ) / (ofSignificand significand exponent).denominator =
      (4 * significand + 2 : ℕ) * 2 ^ (exponent - 2) :=
  quarters exponent _

theorem value_exact (significand : Nat) (exponent : Int) :
    (ofSignificand significand exponent).exact.value = (4 * significand : ℕ) * 2 ^ (exponent - 2) := by
  rw [← quarters, Decimal.value, exact, ofSignificand]
  dsimp only
  rw [Nat.log2_two_pow, zpow_neg, zpow_natCast]
  push_cast
  rw [show (10 : ℚ) = 5 * 2 by norm_num, mul_pow]
  field_simp

theorem contains_exact {significand : Nat} (positive : 0 < significand) (exponent : Int) :
    (ofSignificand significand exponent).contains (ofSignificand significand exponent).exact = true := by
  have unit : (0 : ℚ) < 2 ^ (exponent - 2) := by positivity
  have least : below significand exponent ≠ 0 := by
    unfold below
    split_ifs <;> decide
  have low : ((4 * significand - below significand exponent : ℕ) : ℚ) * 2 ^ (exponent - 2) <
      ((4 * significand : ℕ) : ℚ) * 2 ^ (exponent - 2) := by
    gcongr
    omega
  have high : ((4 * significand : ℕ) : ℚ) * 2 ^ (exponent - 2) <
      ((4 * significand + 2 : ℕ) : ℚ) * 2 ^ (exponent - 2) := by
    gcongr
    omega
  rw [contains_iff (denominator_pos _ _), low_ofSignificand, high_ofSignificand, value_exact]
  split_ifs
  · exact ⟨low.le, high.le⟩
  · exact ⟨low, high⟩

end RoundingRange

end StatBounds.Decimal
