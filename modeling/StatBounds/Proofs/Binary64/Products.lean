import StatBounds.Proofs.Binary64.Rounding

/-! # Differences, products, quotients and roots

A difference is a sum with the negated number. Each of the other operations computes a significand that is long
enough, together with where the exact result lies above it. So the result is the exact one, rounded once.
-/

namespace StatBounds.Binary64

open Float.Model (Format totalExponent)
open Float.Model.UnpackedFloat (Sign Accuracy roundWithAccuracy accuracyOfFraction divCore sqrtCore
  decreaseExponent normalize)

/-! ## Signs -/

noncomputable def factor : Sign → ℝ
  | .positive => 1
  | .negative => -1

theorem factor_mul (s t : Sign) : factor (s * t) = factor s * factor t := by
  cases s <;> cases t <;> simp [factor]

theorem factor_div (s t : Sign) : factor (s / t) = factor s / factor t := by
  cases s <;> cases t <;> simp [factor] <;> rfl

theorem valueOf_finite (sign : Sign) {m : Nat} {e : Int} (positive : 0 < m) :
    valueOf (.finite sign m e positive) = ((factor sign * (m * 2 ^ e) : ℝ) : EReal) := by
  cases sign with
  | positive => rw [valueOf_finite_positive, factor, one_mul]
  | negative => rw [valueOf_finite_negative, factor, neg_one_mul]

/-- A number with a real value is a zero, or has a significand. -/
theorem zero_or_finite {u : Unpacked} (number : u.isNaN = false) {r : ℝ} (same : valueOf u = r) :
    (∃ sign, u = .zero sign ∧ r = 0) ∨
      ∃ sign m e positive, u = .finite sign m e positive ∧ r = factor sign * (m * 2 ^ e) := by
  rcases u with (_ | _) | _ | sign | ⟨sign, m, e, positive⟩
  · exact absurd same (EReal.bot_ne_coe r)
  · exact absurd same (EReal.top_ne_coe r)
  · exact absurd number (by decide)
  · exact .inl ⟨sign, rfl, (EReal.coe_injective same).symm⟩
  · rw [valueOf_finite] at same
    exact .inr ⟨sign, m, e, positive, rfl, (EReal.coe_injective same).symm⟩

theorem roundWithAccuracy_negative (m : Nat) (e : Int) (accuracy : Accuracy) :
    roundWithAccuracy Format.binary64 .negative m e accuracy =
      (roundWithAccuracy Format.binary64 .positive m e accuracy).neg := by
  simp only [roundWithAccuracy]
  split_ifs <;> rfl

/-- A significand with residual bits is rounded to the nearest number. -/
theorem isRounding_roundWithAccuracy (sign : Sign) {x : ℝ} {m : Nat} {accuracy : Accuracy} {e : Int}
    (positive : 0 < x) (leading : 0 < m ∨ target m e = -1074) (located : Located x m accuracy)
    (room : e ≤ target m e) :
    IsRounding (factor sign * (x * 2 ^ e))
      (encode (roundWithAccuracy Format.binary64 sign m e accuracy)) := by
  obtain ⟨number, q, t, rounded, same⟩ := rounded_roundWithAccuracy leading located room
  have magnitude : IsRounding (x * 2 ^ e)
      (encode (roundWithAccuracy Format.binary64 .positive m e accuracy)) :=
    ⟨number, same ▸ .positive (by positivity) rounded⟩
  cases sign with
  | positive => rwa [factor, one_mul]
  | negative =>
      rw [factor, neg_one_mul, roundWithAccuracy_negative]
      exact magnitude.neg

/-! ## Differences -/

private theorem unpacked_sub (u v : Unpacked) : u.sub Format.binary64 v = u.add Format.binary64 v.neg := by
  have flipped (sign : Sign) (m : Nat) : (-sign).apply m = -sign.apply m := by
    cases sign
    · exact (neg_neg (m : Int)).symm
    · rfl
  rcases u with (_ | _) | _ | (_ | _) | ⟨s₁, m₁, e₁, positive₁⟩ <;>
    rcases v with (_ | _) | _ | (_ | _) | ⟨s₂, m₂, e₂, positive₂⟩ <;> try rfl
  change normalize Format.binary64 (s₁.apply (decreaseExponent m₁ e₁ (min e₁ e₂)).1 -
      s₂.apply (decreaseExponent m₂ e₂ (min e₁ e₂)).1) (min e₁ e₂) .positive =
    normalize Format.binary64 (s₁.apply (decreaseExponent m₁ e₁ (min e₁ e₂)).1 +
      (-s₂).apply (decreaseExponent m₂ e₂ (min e₁ e₂)).1) (min e₁ e₂) .positive
  rw [flipped, sub_eq_add_neg]

theorem sub_eq_add (x y : Float) : x - y = x + -y := by
  change encode (x.toModel.unpack.sub Format.binary64 y.toModel.unpack) =
    encode (x.toModel.unpack.add Format.binary64 (-y).toModel.unpack)
  rw [unpack_neg, unpacked_sub]

/-- The difference of two real numbers is rounded to the nearest number. -/
theorem isRounding_sub {x y : Float} (numberX : IsNumber x) (numberY : IsNumber y) {r s : ℝ}
    (valueX : value x = r) (valueY : value y = s) : IsRounding (r - s) (x - y) := by
  rw [sub_eq_add, sub_eq_add_neg]
  exact isRounding_add numberX (isNumber_neg.2 numberY) valueX (by rw [value_neg, valueY, EReal.coe_neg])

/-! ## Products -/

theorem log2_ge {m k : Nat} (le : 2 ^ k ≤ m) : k ≤ m.log2 :=
  (Nat.le_log2 (by have := Nat.two_pow_pos k; omega)).2 le

/-- The product of two real numbers is rounded to the nearest number. -/
theorem isRounding_mul {x y : Float} (numberX : IsNumber x) (numberY : IsNumber y) {r s : ℝ}
    (valueX : value x = r) (valueY : value y = s) : IsRounding (r * s) (x * y) := by
  change IsRounding (r * s) (encode (x.toModel.unpack.mul Format.binary64 y.toModel.unpack))
  have canonicalX : Canonical x.toModel.unpack := canonical_unpack _
  have canonicalY : Canonical y.toModel.unpack := canonical_unpack _
  obtain ⟨sign₁, zeroX, rfl⟩ | ⟨sign₁, m₁, e₁, positive₁, finiteX, rfl⟩ := zero_or_finite numberX valueX <;>
    obtain ⟨sign₂, zeroY, rfl⟩ | ⟨sign₂, m₂, e₂, positive₂, finiteY, rfl⟩ := zero_or_finite numberY valueY
  · rw [zeroX, zeroY, zero_mul]
    exact isRounding_encode trivial rfl rfl
  · rw [zeroX, finiteY, zero_mul]
    exact isRounding_encode trivial rfl rfl
  · rw [finiteX, zeroY, mul_zero]
    exact isRounding_encode trivial rfl rfl
  · rw [finiteX] at canonicalX ⊢
    rw [finiteY] at canonicalY ⊢
    obtain ⟨-, -, -, normal₁⟩ := canonicalX
    obtain ⟨-, -, -, normal₂⟩ := canonicalY
    have bits := target_eq (m₁ * m₂) (e₁ + e₂)
    have room : e₁ + e₂ ≤ target (m₁ * m₂) (e₁ + e₂) := by
      rcases normal₁ with long | least
      · have := log2_ge (long.trans (Nat.le_mul_of_pos_right m₁ positive₂))
        omega
      · rcases normal₂ with long | least'
        · have := log2_ge (long.trans (Nat.le_mul_of_pos_left m₂ positive₁))
          omega
        · omega
    have positive : 0 < m₁ * m₂ := Nat.mul_pos positive₁ positive₂
    have located : Located (m₁ * m₂ : ℕ) (m₁ * m₂) .exact := rfl
    have same : factor sign₁ * (m₁ * 2 ^ e₁) * (factor sign₂ * (m₂ * 2 ^ e₂)) =
        factor (sign₁ * sign₂) * ((m₁ * m₂ : ℕ) * (2 : ℝ) ^ (e₁ + e₂)) := by
      rw [factor_mul, zpow_add₀ (by norm_num)]
      push_cast
      ring
    rw [same]
    exact isRounding_roundWithAccuracy _ (by exact_mod_cast positive) (.inl positive) located room

/-! ## Quotients -/

/-- The remainder of a division places the exact quotient. -/
theorem located_fraction (m : Nat) {n : Nat} (positive : 0 < n) :
    Located ((m : ℝ) / n) (m / n) (accuracyOfFraction (m % n) n) := by
  have split : (m : ℝ) = n * (m / n : ℕ) + (m % n : ℕ) := by
    exact_mod_cast (Nat.div_add_mod m n).symm
  have denominator : (0 : ℝ) < n := by exact_mod_cast positive
  have quotient : (m : ℝ) / n = (m / n : ℕ) + (m % n : ℕ) / n := by
    rw [div_eq_iff denominator.ne']
    field_simp
    linarith
  unfold accuracyOfFraction
  split_ifs with exact
  · rw [Located, quotient, exact]
    simp
  · have less : ((m % n : ℕ) : ℝ) < n := by exact_mod_cast Nat.mod_lt m positive
    have some : (0 : ℝ) < (m % n : ℕ) := by exact_mod_cast Nat.pos_of_ne_zero exact
    rw [quotient]
    refine ⟨by simpa using div_pos some denominator, by simpa using (div_lt_one denominator).2 less, ?_⟩
    rcases lt_trichotomy (2 * (m % n)) n with small | tie | large
    · rw [compare_lt_iff_lt.2 small, cmp_eq_lt_iff, add_lt_add_iff_left, div_lt_iff₀ denominator]
      have : (2 : ℝ) * (m % n : ℕ) < n := by exact_mod_cast small
      linarith
    · rw [compare_eq_iff_eq.2 tie, cmp_eq_eq_iff, add_right_inj, div_eq_iff denominator.ne']
      have : (2 : ℝ) * (m % n : ℕ) = n := by exact_mod_cast tie
      linarith
    · rw [compare_gt_iff_gt.2 large, cmp_eq_gt_iff, add_lt_add_iff_left, lt_div_iff₀ denominator]
      have : (n : ℝ) < 2 * (m % n : ℕ) := by exact_mod_cast large
      linarith

/-- A quotient of significands is computed to at least 53 bits, unless it is too small for them. -/
theorem isRounding_divCore (sign : Sign) {m₁ m₂ : Nat} (positive₁ : 0 < m₁) (positive₂ : 0 < m₂) (e₁ e₂ : Int) :
    let quotient := divCore Format.binary64 m₁ e₁ m₂ e₂
    IsRounding (factor sign * (m₁ * 2 ^ e₁ / (m₂ * 2 ^ e₂)))
      (encode (roundWithAccuracy Format.binary64 sign quotient.1 quotient.2.1 quotient.2.2)) := by
  obtain ⟨t, given⟩ : ∃ t, t = min (e₁ - e₂)
      (Format.binary64.targetExponent (totalExponent m₁ e₁ - totalExponent m₂ e₂)) := ⟨_, rfl⟩
  obtain ⟨shift, moved⟩ := Int.eq_ofNat_of_zero_le (show 0 ≤ e₁ - e₂ - t by omega)
  have computed : divCore Format.binary64 m₁ e₁ m₂ e₂ =
      ((m₁ <<< shift) / m₂, t, accuracyOfFraction ((m₁ <<< shift) % m₂) m₂) := by
    have amount : (e₁ - e₂ - t).toNat = shift := by omega
    simp only [divCore, ← given, amount]
  have exponent : t = min (e₁ - e₂) (max (m₁.log2 + e₁ - (m₂.log2 + e₂) - 53) (-1074)) := by
    simp only [given, Format.targetExponent, totalExponent, Format.mantissaBits, Format.minExponent]
    omega
  have long : -1074 < t → 2 ^ 52 ≤ (m₁ <<< shift) / m₂ := by
    intro above
    rw [Nat.le_div_iff_mul_le positive₂, Nat.shiftLeft_eq]
    calc 2 ^ 52 * m₂ ≤ 2 ^ 52 * 2 ^ (m₂.log2 + 1) := Nat.mul_le_mul_left _ Nat.lt_log2_self.le
      _ = 2 ^ (m₂.log2 + 53) := by rw [← pow_add]; congr 1; omega
      _ ≤ 2 ^ (m₁.log2 + shift) := Nat.pow_le_pow_right (by decide) (by omega)
      _ = 2 ^ m₁.log2 * 2 ^ shift := pow_add ..
      _ ≤ m₁ * 2 ^ shift := Nat.mul_le_mul_right _ (Nat.log2_self_le positive₁.ne')
  have bits := target_eq ((m₁ <<< shift) / m₂) t
  have leading : 0 < (m₁ <<< shift) / m₂ ∨ target ((m₁ <<< shift) / m₂) t = -1074 := by
    rcases Nat.eq_zero_or_pos ((m₁ <<< shift) / m₂) with none | some
    · right
      rw [none, Nat.log2_zero] at bits
      rw [none]
      have := mt long (by omega)
      omega
    · exact .inl some
  have room : t ≤ target ((m₁ <<< shift) / m₂) t := by
    by_cases above : -1074 < t
    · have := log2_ge (long above)
      omega
    · omega
  have same : (m₁ : ℝ) * 2 ^ e₁ / (m₂ * 2 ^ e₂) = ((m₁ <<< shift : ℕ) : ℝ) / m₂ * 2 ^ t := by
    have denominator : (m₂ : ℝ) ≠ 0 := by exact_mod_cast positive₂.ne'
    rw [Nat.shiftLeft_eq, show e₁ = shift + t + e₂ by omega, zpow_add₀ (by norm_num), zpow_add₀ (by norm_num),
      zpow_natCast]
    push_cast
    field_simp
  rw [computed, same]
  refine isRounding_roundWithAccuracy sign ?_ leading (located_fraction _ positive₂) room
  have numerator : 0 < m₁ <<< shift := by
    rw [Nat.shiftLeft_eq]
    positivity
  positivity

/-- The quotient of two real numbers is rounded to the nearest number. -/
theorem isRounding_div {x y : Float} (numberX : IsNumber x) (numberY : IsNumber y) {r s : ℝ}
    (valueX : value x = r) (valueY : value y = s) (nonzero : s ≠ 0) : IsRounding (r / s) (x / y) := by
  change IsRounding (r / s) (encode (x.toModel.unpack.div Format.binary64 y.toModel.unpack))
  obtain ⟨sign₂, zeroY, rfl⟩ | ⟨sign₂, m₂, e₂, positive₂, finiteY, rfl⟩ := zero_or_finite numberY valueY
  · exact absurd rfl nonzero
  obtain ⟨sign₁, zeroX, rfl⟩ | ⟨sign₁, m₁, e₁, positive₁, finiteX, rfl⟩ := zero_or_finite numberX valueX
  · rw [zeroX, finiteY, zero_div]
    exact isRounding_encode trivial rfl rfl
  · rw [finiteX, finiteY, mul_div_mul_comm, ← factor_div]
    exact isRounding_divCore _ positive₁ positive₂ e₁ e₂

/-! ## Square roots -/

/-- The remainder of a square root places the exact root. -/
theorem located_sqrt (m : Nat) :
    Located (√(m : ℝ)) m.sqrt
      (if m - m.sqrt * m.sqrt = 0 then .exact
        else .inexact (if m - m.sqrt * m.sqrt ≤ m.sqrt then .lt else .gt)) := by
  have below : m.sqrt * m.sqrt ≤ m := Nat.sqrt_le m
  have above : m < (m.sqrt + 1) * (m.sqrt + 1) := Nat.lt_succ_sqrt m
  have below' : (m.sqrt : ℝ) * m.sqrt ≤ m := by exact_mod_cast below
  have above' : (m : ℝ) < (m.sqrt + 1) * (m.sqrt + 1) := by exact_mod_cast above
  have nonneg : (0 : ℝ) ≤ m.sqrt := Nat.cast_nonneg _
  split_ifs with exact small
  · have same : m = m.sqrt * m.sqrt := by omega
    rw [Located, Real.sqrt_eq_iff_mul_self_eq (Nat.cast_nonneg _) nonneg]
    exact_mod_cast same
  · have some : (m.sqrt : ℝ) * m.sqrt < m := by
      have : m.sqrt * m.sqrt < m := by omega
      exact_mod_cast this
    refine ⟨Real.lt_sqrt_of_sq_lt (by nlinarith), (Real.sqrt_lt' (by linarith)).2 (by nlinarith), ?_⟩
    have near : (m : ℝ) ≤ m.sqrt * m.sqrt + m.sqrt := by
      have : m ≤ m.sqrt * m.sqrt + m.sqrt := by omega
      exact_mod_cast this
    rw [cmp_eq_lt_iff]
    exact (Real.sqrt_lt' (by linarith)).2 (by nlinarith)
  · have some : (m.sqrt : ℝ) * m.sqrt < m := by
      have : m.sqrt * m.sqrt < m := by omega
      exact_mod_cast this
    refine ⟨Real.lt_sqrt_of_sq_lt (by nlinarith), (Real.sqrt_lt' (by linarith)).2 (by nlinarith), ?_⟩
    have far : (m.sqrt : ℝ) * m.sqrt + m.sqrt + 1 ≤ m := by
      have : m.sqrt * m.sqrt + m.sqrt + 1 ≤ m := by omega
      exact_mod_cast this
    rw [cmp_eq_gt_iff]
    exact Real.lt_sqrt_of_sq_lt (by nlinarith)

/-- A root of a significand is computed to at least 53 bits, unless it is too small for them. -/
theorem isRounding_sqrtCore {m : Nat} (positive : 0 < m) (e : Int) :
    let root := sqrtCore Format.binary64 m e
    IsRounding (√((m : ℝ) * 2 ^ e))
      (encode (roundWithAccuracy Format.binary64 .positive root.1 root.2.1 root.2.2)) := by
  obtain ⟨t, given⟩ : ∃ t, t = min (e.ediv 2)
      (Format.binary64.targetExponent ((totalExponent m e + 1).ediv 2)) := ⟨_, rfl⟩
  have half (k : Int) : k.ediv 2 = k / 2 := rfl
  rw [half, half] at given
  obtain ⟨shift, moved⟩ := Int.eq_ofNat_of_zero_le (show 0 ≤ e - 2 * t by omega)
  have computed : sqrtCore Format.binary64 m e =
      ((m <<< shift).sqrt, t,
        if (m <<< shift) - (m <<< shift).sqrt * (m <<< shift).sqrt = 0 then .exact
        else .inexact (if (m <<< shift) - (m <<< shift).sqrt * (m <<< shift).sqrt ≤ (m <<< shift).sqrt
          then .lt else .gt)) := by
    have amount : (e - 2 * t).toNat = shift := by omega
    simp only [sqrtCore, half, ← given, amount]
  have exponent : t = min (e / 2) (max ((m.log2 + 1 + e + 1) / 2 - 53) (-1074)) := by
    simp only [given, Format.targetExponent, totalExponent, Format.mantissaBits, Format.minExponent]
    omega
  have lengthened : 0 < m <<< shift := by
    rw [Nat.shiftLeft_eq]
    positivity
  have some : 0 < (m <<< shift).sqrt := Nat.sqrt_pos.2 lengthened
  have long : -1074 < t → 2 ^ 52 ≤ (m <<< shift).sqrt := by
    intro above
    rw [Nat.le_sqrt, Nat.shiftLeft_eq, ← pow_add]
    calc 2 ^ (52 + 52) ≤ 2 ^ (m.log2 + shift) := Nat.pow_le_pow_right (by decide) (by omega)
      _ = 2 ^ m.log2 * 2 ^ shift := pow_add ..
      _ ≤ m * 2 ^ shift := Nat.mul_le_mul_right _ (Nat.log2_self_le positive.ne')
  have bits := target_eq (m <<< shift).sqrt t
  have room : t ≤ target (m <<< shift).sqrt t := by
    by_cases above : -1074 < t
    · have := log2_ge (long above)
      omega
    · omega
  have same : √((m : ℝ) * 2 ^ e) = √((m <<< shift : ℕ) : ℝ) * 2 ^ t := by
    have square : (m : ℝ) * 2 ^ e = (m <<< shift : ℕ) * (2 ^ t) ^ 2 := by
      rw [Nat.shiftLeft_eq, show e = shift + (t + t) by omega, zpow_add₀ (by norm_num),
        zpow_add₀ (by norm_num), zpow_natCast]
      push_cast
      ring
    rw [square, Real.sqrt_mul (Nat.cast_nonneg _), Real.sqrt_sq (by positivity)]
  rw [computed, same]
  have rounding := isRounding_roundWithAccuracy .positive (Real.sqrt_pos.2 (by exact_mod_cast lengthened))
    (.inl some) (located_sqrt (m <<< shift)) room
  rwa [factor, one_mul] at rounding

/-- The root of a real number that is not negative is rounded to the nearest number. -/
theorem isRounding_sqrt {x : Float} (number : IsNumber x) {r : ℝ} (valueX : value x = r) (nonneg : 0 ≤ r) :
    IsRounding √r x.sqrt := by
  change IsRounding √r (encode (x.toModel.unpack.sqrt Format.binary64))
  obtain ⟨sign, zeroX, rfl⟩ | ⟨sign, m, e, positive, finiteX, rfl⟩ := zero_or_finite number valueX
  · rw [zeroX, Real.sqrt_zero]
    exact isRounding_encode trivial rfl rfl
  · cases sign with
    | positive =>
        rw [finiteX, factor, one_mul]
        exact isRounding_sqrtCore positive e
    | negative =>
        have := magnitude_pos e positive
        rw [factor, neg_one_mul] at nonneg
        linarith

end StatBounds.Binary64
