import StatBounds.Proofs.Binary64.Rounding

/-! # Integers as binary64 numbers

An integer becomes the nearest number. So the numbers of integers are ordered like the integers, and
an integer of up to 53 bits is its own number. A number may also be rounded to an integer before integers
are compared with it, since no integer lies in between.
-/

namespace StatBounds.Binary64

open Float.Model (Format)
open Float.Model.UnpackedFloat (Sign)

theorem ofInt_eq_encode (n : Int) :
    ofInt n = encode (Float.Model.UnpackedFloat.normalize Format.binary64 n 0 .positive) := by
  rw [ofInt_eq_ofModel]
  rfl

/-- An integer becomes the nearest number. -/
theorem isRounding_ofInt (n : Int) : IsRounding n (ofInt n) := by
  have rounding := isRounding_normalize n 0 .positive
  rw [zpow_zero, mul_one] at rounding
  rwa [ofInt_eq_encode]

@[simp] theorem isNumber_ofInt (n : Int) : IsNumber (ofInt n) :=
  (isRounding_ofInt n).isNumber

theorem rounded_ofInt {n : Int} (positive : 0 < n) :
    ∃ q t, Rounded n q t ∧ value (ofInt n) = clip (q * 2 ^ t) := by
  obtain ⟨-, q, t, rounded, same⟩ := rounded_round (m := n.toNat) (by omega) 0
  have cast : ((n.toNat : ℕ) : ℝ) = n := by
    rw [← Int.cast_natCast, Int.toNat_of_nonneg (by omega)]
  rw [zpow_zero, mul_one, cast] at rounded
  refine ⟨q, t, rounded, ?_⟩
  rw [← same, ofInt_eq_encode, Float.Model.UnpackedFloat.normalize, compare_gt_iff_gt.2 positive]

theorem value_ofInt_zero : value (ofInt 0) = 0 := by
  rw [ofInt_eq_encode]
  rfl

theorem value_encode_neg (u : Unpacked) : value (encode u.neg) = -value (encode u) := by
  rw [value, unpack_encode_neg, valueOf_neg, value]

private theorem value_ofInt_neg_of_pos {n : Int} (positive : 0 < n) :
    value (ofInt (-n)) = -value (ofInt n) := by
  have negative : -n < 0 := by omega
  rw [ofInt_eq_encode, ofInt_eq_encode, Float.Model.UnpackedFloat.normalize,
    Float.Model.UnpackedFloat.normalize, compare_gt_iff_gt.2 positive, compare_lt_iff_lt.2 negative,
    neg_neg]
  simp only [round_negative, value_encode_neg]

theorem value_ofInt_neg (n : Int) : value (ofInt (-n)) = -value (ofInt n) := by
  rcases lt_trichotomy n 0 with negative | rfl | positive
  · have mirrored := value_ofInt_neg_of_pos (n := -n) (by omega)
    rw [neg_neg] at mirrored
    rw [mirrored, neg_neg]
  · rw [neg_zero, value_ofInt_zero, neg_zero]
  · exact value_ofInt_neg_of_pos positive

theorem value_ofInt_mono {m n : Int} (le : m ≤ n) : value (ofInt m) ≤ value (ofInt n) :=
  (isRounding_ofInt m).nearest.mono (isRounding_ofInt n).nearest (by exact_mod_cast le)

private theorem value_ofInt_exact_of_pos {n : Int} (positive : 0 < n) (small : n ≤ 2 ^ 53) :
    value (ofInt n) = ((n : ℝ) : EReal) := by
  obtain ⟨q, t, rounded, same⟩ := rounded_ofInt positive
  have small' : (n : ℝ) ≤ 2 ^ 53 := by exact_mod_cast small
  have exact : (q : ℝ) * 2 ^ t = n := by
    rcases lt_or_ge 0 t with coarse | fine
    · -- The only such number with a coarser unit is the power of two at the limit.
      have normal := rounded.normal.resolve_right (by omega)
      have le : (2 : ℝ) ^ (1 : ℤ) ≤ 2 ^ t := by
        gcongr
        · norm_num
        · omega
      have : (n : ℝ) = 2 ^ 53 := by
        norm_num at le
        linarith
      have : t = 1 := by
        by_contra
        have le : (2 : ℝ) ^ (2 : ℤ) ≤ 2 ^ t := by
          gcongr
          · norm_num
          · omega
        norm_num at le
        linarith
      subst this
      refine rounded.exact (k := 2 ^ 52) ?_
      norm_num at *
      assumption
    · refine rounded.exact (k := n.toNat * 2 ^ (-t).toNat) ?_
      have cast : ((n.toNat : ℕ) : ℝ) = n := by
        rw [← Int.cast_natCast, Int.toNat_of_nonneg (by omega)]
      have power : (2 : ℝ) ^ (-t).toNat * 2 ^ t = 1 := by
        rw [← zpow_natCast, Int.toNat_of_nonneg (by omega), ← zpow_add₀ (by norm_num)]
        norm_num
      push_cast
      rw [cast, mul_assoc, power, mul_one]
  have fits : (n : ℝ) < limit := by
    calc (n : ℝ) ≤ 2 ^ 53 * 1 := by linarith
      _ < 2 ^ 53 * 2 ^ (971 : ℤ) := by
        gcongr
        exact one_lt_zpow₀ (by norm_num) (by norm_num)
      _ = limit := (limit_eq 53).symm
  rw [same, exact, clip, if_pos fits]

theorem value_ofInt_exact {n : Int} (small : |n| ≤ 2 ^ 53) : value (ofInt n) = ((n : ℝ) : EReal) := by
  obtain ⟨low, high⟩ := abs_le.1 small
  rcases lt_trichotomy n 0 with negative | rfl | positive
  · have mirrored := value_ofInt_exact_of_pos (n := -n) (by omega) (by omega)
    rw [value_ofInt_neg, Int.cast_neg, EReal.coe_neg] at mirrored
    exact neg_injective mirrored
  · rw [value_ofInt_zero, Int.cast_zero, EReal.coe_zero]
  · exact value_ofInt_exact_of_pos positive high

/-- Numbers that are not rounded are compared as the integers are. -/
theorem le_of_value_ofInt_le {m n : Int} (small : |m| < 2 ^ 53) (le : value (ofInt m) ≤ value (ofInt n)) : m ≤ n := by
  by_contra! less
  have below := le.trans (value_ofInt_mono (Int.le_sub_one_of_lt less))
  have ⟨low, high⟩ := abs_lt.1 small
  rw [value_ofInt_exact small.le, value_ofInt_exact (abs_le.2 ⟨by omega, by omega⟩), EReal.coe_le_coe_iff,
    Int.cast_le] at below
  omega

theorem ge_of_value_ofInt_ge {m n : Int} (small : |m| < 2 ^ 53) (ge : value (ofInt n) ≤ value (ofInt m)) : n ≤ m := by
  have le : value (ofInt (-m)) ≤ value (ofInt (-n)) := by
    rw [value_ofInt_neg, value_ofInt_neg]
    exact EReal.neg_le_neg_iff.2 ge
  have := le_of_value_ofInt_le (by rwa [abs_neg]) le
  omega

theorem value_ofInt_word {n : Int} (low : -2 ^ 63 ≤ n) (high : n < 2 ^ 63) :
    ∃ r : ℝ, value (ofInt n) = r := by
  have bounded (k : Int) (le : k ≤ 2 ^ 63) : value (ofInt k) < ⊤ := by
    let power : Unpacked := .finite .positive (2 ^ 52) 11 (by norm_num)
    have canonical : Canonical power := ⟨by norm_num, by norm_num, by norm_num, .inl le_rfl⟩
    have same : valueOf power = ((2 ^ 63 : ℝ) : EReal) := by
      rw [valueOf_finite_positive]
      norm_num
    have above := ((isRounding_ofInt k).faithful power canonical rfl).2
    rw [same, EReal.coe_le_coe_iff] at above
    exact lt_of_le_of_lt (above (by exact_mod_cast le)) (EReal.coe_lt_top _)
  have below : ⊥ < value (ofInt n) := by
    have := bounded (-n) (by omega)
    rw [value_ofInt_neg, ← EReal.neg_bot] at this
    exact EReal.neg_lt_neg_iff.1 this
  exact ⟨_, (EReal.coe_toReal (bounded n (by omega)).ne below.ne').symm⟩

/-! ## Reading numbers as integers -/

theorem value_ofInt_of_value {x : Float} {n : Int} (number : IsNumber x) (same : value x = ((n : ℝ) : EReal)) :
    value (ofInt n) = ((n : ℝ) : EReal) := by
  obtain ⟨below, above⟩ := (isRounding_ofInt n).faithful x.toModel.unpack (canonical_unpack _) number
  change (value x ≤ _ → value x ≤ _) at below
  change (_ ≤ value x → _ ≤ value x) at above
  rw [same] at below above
  exact le_antisymm (above le_rfl) (below le_rfl)

private theorem cast_apply (sign : Sign) (m : Nat) :
    ((sign.apply m : ℤ) : ℝ) = (sign.apply 1 : ℤ) * (m : ℝ) := by
  cases sign <;> simp [Sign.apply]

theorem value_of_toInt? {x : Float} {m : Int} (read : toInt? x = some m) :
    value x = ((m : ℝ) : EReal) := by
  rw [value]
  unfold toInt? at read
  cases same : x.toModel.unpack with
  | infinity | notANumber => simp [same] at read
  | zero sign =>
      obtain rfl : 0 = m := by simpa [same] using read
      simp [valueOf]
  | finite sign significand exponent positive =>
      simp only [same] at read
      rw [valueOf, EReal.coe_eq_coe_iff]
      split_ifs at read with whole divides
      · obtain rfl := Option.some.inj read
        have power : (2 : ℝ) ^ exponent = 2 ^ exponent.toNat := by
          rw [← zpow_natCast, Int.toNat_of_nonneg whole]
        have split := cast_apply sign (significand * 2 ^ exponent.toNat)
        push_cast at split
        rw [split, cast_apply, power, mul_assoc]
      · obtain rfl := Option.some.inj read
        have power : (2 : ℝ) ^ exponent = 1 / 2 ^ (-exponent).toNat := by
          rw [← zpow_natCast, Int.toNat_of_nonneg (by omega), one_div, ← zpow_neg, neg_neg]
        have split := cast_apply sign (significand / 2 ^ (-exponent).toNat)
        have divided : ((significand / 2 ^ (-exponent).toNat : ℕ) : ℝ) =
            significand / 2 ^ (-exponent).toNat := by
          rw [Nat.cast_div (Nat.dvd_of_mod_eq_zero divides) (by positivity)]
          push_cast
          rfl
        rw [divided] at split
        push_cast at split
        rw [split, cast_apply, power, mul_assoc, mul_one_div]

private theorem abs_apply (sign : Sign) (m : Nat) : |((sign.apply m : ℤ) : ℝ)| = m := by
  cases sign <;> simp [Sign.apply]

/-- A number that is no less than the greatest significand is an integer. -/
theorem exists_toInt?_of_large {x : Float} {r : ℝ} (finite : value x = r) (large : 2 ^ 53 ≤ |r|) :
    ∃ m, toInt? x = some m := by
  have canonical : Canonical x.toModel.unpack := canonical_unpack _
  rw [value] at finite
  unfold toInt?
  cases same : x.toModel.unpack with
  | infinity sign => cases sign <;> simp [same, valueOf] at finite
  | notANumber | zero =>
      obtain rfl : r = 0 := by
        rw [same] at finite
        exact (EReal.coe_eq_zero.1 finite.symm)
      norm_num at large
  | finite sign significand exponent positive =>
      by_cases whole : exponent ≥ 0
      · exact ⟨_, if_pos whole⟩
      · rw [same, valueOf, EReal.coe_eq_coe_iff] at finite
        rw [same] at canonical
        have small : (significand : ℝ) < 2 ^ 53 := by exact_mod_cast canonical.1
        have power : (2 : ℝ) ^ exponent ≤ 1 := zpow_le_one_of_nonpos₀ (by norm_num) (by omega)
        have : |r| < 2 ^ 53 := by
          calc |r| = significand * (2 : ℝ) ^ exponent := by
                rw [← finite, abs_mul, abs_apply, abs_of_pos (by positivity)]
            _ ≤ significand * 1 := by gcongr
            _ < 2 ^ 53 := by rwa [mul_one]
        linarith

theorem toInt?_of_value {x : Float} {m : Int} (number : IsNumber x) (same : value x = ((m : ℝ) : EReal)) :
    toInt? x = some m := by
  have isRead : ∃ k, toInt? x = some k := by
    rw [value] at same
    unfold toInt?
    cases unpacked : x.toModel.unpack with
    | infinity sign => cases sign <;> simp [unpacked, valueOf] at same
    | notANumber =>
        have : x.toModel.unpack.isNaN = false := number
        rw [unpacked] at this
        exact absurd this (by decide)
    | zero sign => exact ⟨0, rfl⟩
    | finite sign significand exponent positive =>
        by_cases whole : exponent ≥ 0
        · exact ⟨_, if_pos whole⟩
        · -- The fraction is zero because the integer times the power of two is the significand.
          rw [unpacked, valueOf, EReal.coe_eq_coe_iff] at same
          have magnitude : (significand : ℝ) * 2 ^ exponent = m.natAbs := by
            have := congrArg abs same
            rwa [abs_mul, abs_apply, abs_of_pos (by positivity : (0 : ℝ) < 2 ^ exponent),
              ← Int.cast_abs, Int.abs_eq_natAbs, Int.cast_natCast] at this
          have product : significand = m.natAbs * 2 ^ (-exponent).toNat := by
            have power : (2 : ℝ) ^ exponent * 2 ^ (-exponent).toNat = 1 := by
              rw [← zpow_natCast, Int.toNat_of_nonneg (by omega), ← zpow_add₀ (by norm_num)]
              norm_num
            have : (significand : ℝ) = m.natAbs * 2 ^ (-exponent).toNat := by
              rw [← magnitude, mul_assoc, power, mul_one]
            exact_mod_cast this
          have divides : significand % 2 ^ (-exponent).toNat = 0 := by
            rw [product, Nat.mul_mod_left]
          exact ⟨_, (if_neg whole).trans (if_pos divides)⟩
  obtain ⟨k, read⟩ := isRead
  have : (k : ℝ) = m := EReal.coe_eq_coe_iff.1 ((value_of_toInt? read).symm.trans same)
  rw [read, show k = m by exact_mod_cast this]

/-- The number made of an integer is an integer, unless it is infinite. -/
theorem exists_toInt?_ofInt {n : Int} {r : ℝ} (finite : value (ofInt n) = r) :
    ∃ m, toInt? (ofInt n) = some m := by
  have power : value (ofInt (2 ^ 53)) = ((2 ^ 53 : ℝ) : EReal) := by
    rw [value_ofInt_exact (by norm_num)]
    norm_num
  by_cases small : |n| ≤ 2 ^ 53
  · exact ⟨n, toInt?_of_value (isNumber_ofInt n) (value_ofInt_exact small)⟩
  · refine exists_toInt?_of_large finite ?_
    rcases le_abs'.1 (not_le.1 small).le with low | high
    · have := value_ofInt_mono low
      rw [value_ofInt_neg, power, finite, ← EReal.coe_neg, EReal.coe_le_coe_iff] at this
      exact le_abs'.2 (.inl this)
    · have := value_ofInt_mono high
      rw [power, finite, EReal.coe_le_coe_iff] at this
      exact le_abs'.2 (.inr this)

/-! ## Rounding to integers -/

section

variable {x : Float} {r : ℝ} {n : Int}

@[simp] theorem isNumber_floor : IsNumber (floor x) ↔ IsNumber x := by
  unfold floor
  split
  · next unpacked =>
      have number : IsNumber x := by rw [IsNumber, Float.isNaN, Float.Model.isNaN, unpacked]; rfl
      split_ifs
      · exact iff_of_true (isNumber_ofInt _) number
      · exact Iff.rfl
  · exact Iff.rfl

theorem floor_of_isInf (infinite : x.isInf = true) : floor x = x := by
  change x.toModel.unpack.isInf = true at infinite
  unfold floor
  split
  · next unpacked => simp [unpacked, Float.Model.UnpackedFloat.isInf] at infinite
  · rfl

theorem value_floor (finite : value x = r) : value (floor x) = ((⌊r⌋ : ℝ) : EReal) := by
  have canonical : Canonical x.toModel.unpack := canonical_unpack _
  have whole {k : Int} (integer : r = k) : value x = ((⌊r⌋ : ℝ) : EReal) := by
    rw [finite, integer, Int.floor_intCast]
  have real := finite
  rw [value] at real
  unfold floor
  split
  · next sign m e positive unpacked =>
      rw [unpacked, valueOf, EReal.coe_eq_coe_iff] at real
      rw [unpacked] at canonical
      split_ifs with fraction
      · have power : (2 : ℝ) ^ e = 1 / 2 ^ (-e).toNat := by
          rw [← zpow_natCast, Int.toNat_of_nonneg (by omega), one_div, ← zpow_neg, neg_neg]
        have split : r = (((sign.apply m : ℤ) / (2 ^ (-e).toNat : ℕ) : ℚ) : ℝ) := by
          rw [← real, power]
          push_cast
          ring
        have floored : ⌊r⌋ = sign.apply m / (2 ^ (-e).toNat : ℕ) := by
          rw [split, Rat.floor_cast, Rat.floor_intCast_div_natCast]
        have small : |r| ≤ 2 ^ 53 := by
          have significand : (m : ℝ) ≤ 2 ^ 53 := by exact_mod_cast canonical.1.le
          have below : (2 : ℝ) ^ e ≤ 1 := zpow_le_one_of_nonpos₀ (by norm_num) fraction.le
          have magnitude : |((sign.apply m : ℤ) : ℝ)| = m := by cases sign <;> simp [Sign.apply]
          rw [← real, abs_mul, magnitude, abs_of_pos (by positivity : (0 : ℝ) < 2 ^ e)]
          nlinarith
        obtain ⟨low, high⟩ := abs_le.1 small
        have bounded : |⌊r⌋| ≤ 2 ^ 53 := by
          refine abs_le.2 ⟨Int.le_floor.2 (by exact_mod_cast low), ?_⟩
          exact_mod_cast (Int.floor_le r).trans high
        rw [← floored, value_ofInt_exact bounded]
      · have power : (2 : ℝ) ^ e = 2 ^ e.toNat := by
          rw [← zpow_natCast, Int.toNat_of_nonneg (by omega)]
        exact whole (k := sign.apply m * 2 ^ e.toNat) (by rw [← real, power]; push_cast; rfl)
  · next other =>
      refine whole (k := 0) ?_
      cases unpacked : x.toModel.unpack with
      | infinity sign => cases sign <;> simp [unpacked, valueOf] at real
      | notANumber | zero =>
          rw [unpacked] at real
          simpa using (EReal.coe_eq_zero.1 real.symm)
      | finite sign m e positive => exact (other sign m e positive unpacked).elim

/-- An integer stands for an integer, or for an infinity. -/
theorem value_ofInt_cases (n : Int) :
    value (ofInt n) = ⊤ ∨ value (ofInt n) = ⊥ ∨ ∃ m : ℤ, value (ofInt n) = ((m : ℝ) : EReal) := by
  cases infinite : (ofInt n).isInf with
  | true => exact (isInf_iff.1 infinite).imp_right .inl
  | false =>
      obtain ⟨q, finite⟩ := exists_real_of_not_isInf infinite
      obtain ⟨m, read⟩ := exists_toInt?_ofInt finite
      exact .inr (.inr ⟨m, value_of_toInt? read⟩)

theorem value_ofInt_le_floor_iff : value (ofInt n) ≤ value (floor x) ↔ value (ofInt n) ≤ value x := by
  cases infinite : x.isInf with
  | true => rw [floor_of_isInf infinite]
  | false =>
      obtain ⟨r, finite⟩ := exists_real_of_not_isInf infinite
      rw [value_floor finite, finite]
      rcases value_ofInt_cases n with top | bottom | ⟨m, same⟩
      · simp [top]
      · simp [bottom]
      · rw [same, EReal.coe_le_coe_iff, EReal.coe_le_coe_iff, Int.cast_le, Int.le_floor]

theorem value_ceiling_le_ofInt_iff : value (ceiling x) ≤ value (ofInt n) ↔ value x ≤ value (ofInt n) := by
  have mirrored : value (ofInt n) = -value (ofInt (-n)) := by rw [value_ofInt_neg, neg_neg]
  rw [ceiling, value_neg, mirrored, EReal.neg_le_neg_iff, value_ofInt_le_floor_iff, value_neg, EReal.le_neg]

@[simp] theorem isNumber_ceiling : IsNumber (ceiling x) ↔ IsNumber x := by
  rw [ceiling, isNumber_neg, isNumber_floor, isNumber_neg]

/-- An integer is below a number rounded up iff it is below the number. -/
theorem ofInt_lt_ceiling_iff : ofInt n < ceiling x ↔ ofInt n < x := by
  rw [lt_iff, lt_iff, ← not_le, value_ceiling_le_ofInt_iff, not_le, isNumber_ceiling]

/-- An integer is above a number rounded down iff it is above the number. -/
theorem floor_lt_ofInt_iff : floor x < ofInt n ↔ x < ofInt n := by
  rw [lt_iff, lt_iff, ← not_le, value_ofInt_le_floor_iff, not_le, isNumber_floor]

theorem ceiling_le_ofInt_iff : ceiling x ≤ ofInt n ↔ x ≤ ofInt n := by
  rw [le_iff, le_iff, value_ceiling_le_ofInt_iff, isNumber_ceiling]

theorem ofInt_le_floor_iff : ofInt n ≤ floor x ↔ ofInt n ≤ x := by
  rw [le_iff, le_iff, value_ofInt_le_floor_iff, isNumber_floor]

end

end StatBounds.Binary64
