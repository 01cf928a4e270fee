import StatBounds.Proofs.Binary64.Rounding

/-! # Neighbours in the numeric order

Below the sign bit, bit patterns are ordered like the magnitudes that they encode. So a step to the
next pattern is a step to a strictly greater magnitude, and `next` leaves no number where it was except
the positive infinity.
-/

namespace StatBounds.Binary64

open Float.Model (Format)
open Float.Model.UnpackedFloat (Sign packComponents)

/-! ## Patterns by sign and magnitude -/

def pattern (sign : Sign) (n : Nat) : BitVec 64 :=
  packComponents Format.binary64 sign (BitVec.ofNat 11 (n / 2 ^ 52)) (BitVec.ofNat 52 n)

theorem toNat_pattern (sign : Sign) {n : Nat} (small : n < 2 ^ 63) :
    (pattern sign n).toNat = sign.toBitVec.toNat * 2 ^ 63 + n := by
  change (sign.toBitVec ++ BitVec.ofNat 11 (n / 2 ^ 52) ++ BitVec.ofNat 52 n).toNat = _
  rw [BitVec.toNat_append, ← Nat.shiftLeft_add_eq_or_of_lt (BitVec.isLt _), BitVec.toNat_append,
    ← Nat.shiftLeft_add_eq_or_of_lt (BitVec.isLt _)]
  simp only [Nat.shiftLeft_eq, BitVec.toNat_ofNat]
  omega

theorem exists_pattern (bits : BitVec 64) : ∃ sign n, n < 2 ^ 63 ∧ bits = pattern sign n := by
  have width := bits.isLt
  by_cases top : bits.toNat < 2 ^ 63
  · refine ⟨.positive, bits.toNat, top, BitVec.eq_of_toNat_eq ?_⟩
    rw [toNat_pattern _ top]
    simp [Sign.toBitVec]
  · refine ⟨.negative, bits.toNat - 2 ^ 63, by omega, BitVec.eq_of_toNat_eq ?_⟩
    rw [toNat_pattern _ (by omega)]
    simp [Sign.toBitVec]
    omega

def decode (n : Nat) : Unpacked :=
  Float.Model.UnpackedFloat.unpack Format.binary64 (pattern .positive n)

theorem unpack_pattern_negative (n : Nat) :
    Float.Model.UnpackedFloat.unpack Format.binary64 (pattern .negative n) = (decode n).neg :=
  unpack_packComponents_neg .positive _ _

/-- The magnitude of the infinities. -/
def greatest : Nat := 2047 * 2 ^ 52

theorem decode_greatest : decode greatest = .infinity .positive := by rfl

theorem decode_subnormal {n : Nat} (nonzero : 0 < n) (small : n < 2 ^ 52) :
    decode n = .finite .positive n (-1074) nonzero := by
  have exponent : BitVec.ofNat 11 (n / 2 ^ 52) = 0#11 := by
    rw [Nat.div_eq_of_lt small]
  have fraction : (BitVec.ofNat 52 n).toNat = n := by
    rw [BitVec.toNat_ofNat, Nat.mod_eq_of_lt small]
  have notZero : BitVec.ofNat 52 n ≠ 0#52 := by
    intro same
    rw [same, BitVec.toNat_ofNat] at fraction
    omega
  rw [decode, pattern, exponent, unpack_packComponents, if_neg (by decide), if_pos rfl,
    dif_neg notZero]
  simp only [fraction]

theorem decode_normal {n : Nat} (normal : 2 ^ 52 ≤ n) (small : n < greatest) :
    decode n = .finite .positive (2 ^ 52 + n % 2 ^ 52) ((n / 2 ^ 52 : ℕ) - 1075) (by positivity) := by
  unfold greatest at small
  have exponent : (BitVec.ofNat 11 (n / 2 ^ 52)).toNat = n / 2 ^ 52 := by
    rw [BitVec.toNat_ofNat]
    omega
  have notTop : BitVec.ofNat 11 (n / 2 ^ 52) ≠ -1#11 := by
    intro same
    rw [same] at exponent
    simp only [BitVec.toNat_neg, BitVec.toNat_ofNat] at exponent
    omega
  have notZero : BitVec.ofNat 11 (n / 2 ^ 52) ≠ 0#11 := by
    intro same
    rw [same, BitVec.toNat_ofNat] at exponent
    omega
  rw [decode, pattern, unpack_packComponents, if_neg notTop, if_neg notZero]
  simp only [exponent, append_implicit, BitVec.toNat_ofNat]

theorem decode_notANumber {n : Nat} (beyond : greatest < n) (small : n < 2 ^ 63) :
    decode n = .notANumber := by
  unfold greatest at beyond
  have exponent : BitVec.ofNat 11 (n / 2 ^ 52) = -1#11 := by
    apply BitVec.eq_of_toNat_eq
    rw [BitVec.toNat_ofNat, show n / 2 ^ 52 = 2047 by omega]
    rfl
  have fraction : BitVec.ofNat 52 n ≠ 0#52 := by
    intro same
    have := congrArg BitVec.toNat same
    simp only [BitVec.toNat_ofNat] at this
    omega
  rw [decode, pattern, unpack_packComponents, if_pos exponent, if_neg fraction]

theorem decode_isNaN {n : Nat} (small : n < 2 ^ 63) : (decode n).isNaN = false ↔ n ≤ greatest := by
  rcases lt_trichotomy n greatest with less | rfl | beyond
  · refine iff_of_true ?_ less.le
    rcases Nat.lt_or_ge n (2 ^ 52) with subnormal | normal
    · rcases Nat.eq_zero_or_pos n with rfl | nonzero
      · rfl
      · rw [decode_subnormal nonzero subnormal]
        rfl
    · rw [decode_normal normal less]
      rfl
  · rw [decode_greatest]
    exact iff_of_true rfl le_rfl
  · rw [decode_notANumber beyond small]
    exact iff_of_false (by decide) (by omega)

theorem valueOf_decode_subnormal {n : Nat} (small : n < 2 ^ 52) :
    valueOf (decode n) = ((n * 2 ^ (-1074 : ℤ) : ℝ) : EReal) := by
  rcases Nat.eq_zero_or_pos n with rfl | nonzero
  · rw [Nat.cast_zero, zero_mul]
    rfl
  · rw [decode_subnormal nonzero small, valueOf_finite_positive]

theorem valueOf_decode_lt_succ {n : Nat} (below : n < greatest) :
    valueOf (decode n) < valueOf (decode (n + 1)) := by
  have bound := below
  unfold greatest at bound
  rcases Nat.lt_or_ge (n + 1) (2 ^ 52) with subnormal | normal
  · rw [valueOf_decode_subnormal subnormal, valueOf_decode_subnormal (n := n) (by omega), EReal.coe_lt_coe_iff]
    gcongr
    omega
  · rcases Nat.lt_or_ge (n + 1) greatest with inside | last
    · rw [decode_normal normal inside, valueOf_finite_positive]
      rcases Nat.lt_or_ge n (2 ^ 52) with last | leading
      · rw [valueOf_decode_subnormal last, EReal.coe_lt_coe_iff, show (n + 1) / 2 ^ 52 = 1 by omega,
          show (((1 : ℕ) : ℤ) - 1075) = -1074 by norm_num]
        gcongr
        omega
      · rw [decode_normal leading below, valueOf_finite_positive, EReal.coe_lt_coe_iff]
        rcases Nat.lt_or_ge (n % 2 ^ 52 + 1) (2 ^ 52) with same | carry
        · rw [show (n + 1) / 2 ^ 52 = n / 2 ^ 52 by omega]
          gcongr
          omega
        · exact magnitude_lt (by omega) (by omega) (by omega)
    · have reached : n + 1 = greatest := le_antisymm below last
      have leading : 2 ^ 52 ≤ n := by
        unfold greatest at reached
        omega
      rw [reached, decode_greatest, decode_normal leading below, valueOf_finite_positive]
      exact EReal.coe_lt_top _

theorem valueOf_decode_nonneg {n : Nat} (small : n ≤ greatest) : 0 ≤ valueOf (decode n) := by
  induction n with
  | zero => exact le_rfl
  | succ n ih => exact (ih (by omega)).trans (valueOf_decode_lt_succ (by omega)).le

theorem valueOf_decode_mono {m n : Nat} (le : m ≤ n) (small : n ≤ greatest) :
    valueOf (decode m) ≤ valueOf (decode n) := by
  induction n, le using Nat.le_induction with
  | base => exact le_rfl
  | succ n _ ih => exact (ih (by omega)).trans (valueOf_decode_lt_succ (by omega)).le

/-! ## The least number above -/

theorem unpack_ofBits (bits : UInt64) :
    (Float.ofBits bits).toModel.unpack =
      Float.Model.UnpackedFloat.unpack Format.binary64 bits.toBitVec :=
  unpack_pack (canonical_unpack _)

theorem unpack_ofBits_succ {bits : UInt64} {n : Nat} (same : bits.toBitVec = pattern .positive n)
    (small : n + 1 < 2 ^ 63) : (Float.ofBits (bits + 1)).toModel.unpack = decode (n + 1) := by
  rw [unpack_ofBits, decode]
  congr 1
  apply BitVec.eq_of_toNat_eq
  rw [UInt64.toBitVec_add, same, BitVec.toNat_add, toNat_pattern _ small, toNat_pattern _ (by omega)]
  simp [Sign.toBitVec]
  omega

theorem unpack_ofBits_pred {bits : UInt64} {n : Nat} (same : bits.toBitVec = pattern .negative (n + 1))
    (small : n + 1 < 2 ^ 63) : (Float.ofBits (bits - 1)).toModel.unpack = (decode n).neg := by
  rw [unpack_ofBits, ← unpack_pattern_negative]
  congr 1
  apply BitVec.eq_of_toNat_eq
  rw [UInt64.toBitVec_sub, same, BitVec.toNat_sub, toNat_pattern _ small, toNat_pattern _ (by omega)]
  simp [Sign.toBitVec]
  omega

/-- Every number has a sign and a magnitude, which is at most that of the infinities. -/
theorem exists_magnitude {x : Float} (number : IsNumber x) :
    ∃ n ≤ greatest,
      (x.toBits.toBitVec = pattern .positive n ∧ value x = valueOf (decode n)) ∨
        (x.toBits.toBitVec = pattern .negative n ∧ value x = -valueOf (decode n)) := by
  obtain ⟨sign, n, small, same⟩ := exists_pattern x.toBits.toBitVec
  change (Float.Model.UnpackedFloat.unpack Format.binary64 x.toBits.toBitVec).isNaN = false at number
  change ∃ n ≤ greatest, (_ ∧ valueOf (Float.Model.UnpackedFloat.unpack Format.binary64
    x.toBits.toBitVec) = _) ∨ (_ ∧ valueOf (Float.Model.UnpackedFloat.unpack Format.binary64
    x.toBits.toBitVec) = _)
  rw [same] at number ⊢
  cases sign with
  | positive => exact ⟨n, (decode_isNaN small).1 number, .inl ⟨rfl, rfl⟩⟩
  | negative =>
      rw [unpack_pattern_negative] at number ⊢
      have positive : (decode n).isNaN = false := by
        cases decoded : decode n <;> rw [decoded] at number <;> exact number
      exact ⟨n, (decode_isNaN small).1 positive, .inr ⟨rfl, valueOf_neg _⟩⟩

/-- Below the positive infinity a step leads to the next magnitude, away from zero or towards it. -/
theorem unpack_next {x : Float} (number : IsNumber x) (bounded : value x ≠ ⊤) :
    ∃ n < greatest, (value x = valueOf (decode n) ∧ (next x).toModel.unpack = decode (n + 1)) ∨
      (value x = -valueOf (decode (n + 1)) ∧ (next x).toModel.unpack = (decode n).neg) := by
  obtain ⟨n, small, sign⟩ := exists_magnitude number
  have width : greatest < 2 ^ 63 := by decide
  have notInfinity : (x == infinity) = false := by
    rw [Bool.eq_false_iff, ne_eq, beq_iff, value_infinity]
    exact fun equal => bounded equal.2.2
  have isZero : (x == 0.0) = true ↔ value x = 0 := by
    simp only [beq_iff, number, isNumber_zero, value_zero, true_and]
  have isPositive : x > 0.0 ↔ 0 < value x := by
    simp only [gt_iff_lt, lt_iff, number, isNumber_zero, value_zero, true_and]
  unfold next
  rw [notInfinity, Bool.or_false, if_neg (Bool.eq_false_iff.1 number)]
  split_ifs with zero positive
  · exact ⟨0, by decide, .inl ⟨isZero.1 zero, by rfl⟩⟩
  · rcases sign with ⟨same, magnitude⟩ | ⟨-, magnitude⟩
    · have below : n < greatest := by
        refine lt_of_le_of_ne small fun top => bounded ?_
        rw [magnitude, top, decode_greatest]
        rfl
      exact ⟨n, below, .inl ⟨magnitude, unpack_ofBits_succ same (by omega)⟩⟩
    · have := valueOf_decode_nonneg small
      rw [isPositive, magnitude] at positive
      exact absurd positive (not_lt.2 (by simpa using this))
  · rcases sign with ⟨-, magnitude⟩ | ⟨same, magnitude⟩
    · have := valueOf_decode_nonneg small
      rw [isPositive, magnitude] at positive
      rw [isZero, magnitude] at zero
      exact absurd (le_antisymm (not_lt.1 positive) this) zero
    · cases n with
      | zero => exact absurd (isZero.2 (magnitude.trans neg_zero)) zero
      | succ n => exact ⟨n, small, .inr ⟨magnitude, unpack_ofBits_pred same (by omega)⟩⟩

/-- Below the positive infinity the next number is a greater number. -/
theorem value_lt_next {x : Float} (number : IsNumber x) (bounded : value x ≠ ⊤) :
    IsNumber (next x) ∧ value x < value (next x) := by
  have width : greatest < 2 ^ 63 := by decide
  obtain ⟨n, below, ⟨magnitude, decoded⟩ | ⟨magnitude, decoded⟩⟩ := unpack_next number bounded
  · refine ⟨?_, ?_⟩
    · change (next x).toModel.unpack.isNaN = false
      rw [decoded, decode_isNaN (by omega)]
      exact below
    · rw [magnitude, value, decoded]
      exact valueOf_decode_lt_succ below
  · refine ⟨?_, ?_⟩
    · have number : (decode n).isNaN = false := (decode_isNaN (by omega)).2 below.le
      change (next x).toModel.unpack.isNaN = false
      rw [decoded]
      cases same : decode n <;> rw [same] at number <;> exact number
    · rw [magnitude, value, decoded, valueOf_neg, EReal.neg_lt_neg_iff]
      exact valueOf_decode_lt_succ below

theorem next_top {x : Float} (number : IsNumber x) (top : value x = ⊤) : next x = x := by
  have equal : (x == infinity) = true := beq_iff.2 ⟨number, isNumber_infinity, by simpa using top⟩
  rw [next, equal, Bool.or_true, if_pos rfl]

theorem isNumber_next {x : Float} (number : IsNumber x) : IsNumber (next x) := by
  by_cases top : value x = ⊤
  · rwa [next_top number top]
  · exact (value_lt_next number top).1

theorem isNumber_previous {x : Float} (number : IsNumber x) : IsNumber (previous x) := by
  rw [previous, isNumber_neg]
  exact isNumber_next (isNumber_neg.2 number)

theorem value_le_next {x : Float} (number : IsNumber x) : value x ≤ value (next x) := by
  by_cases top : value x = ⊤
  · rw [next_top number top]
  · exact (value_lt_next number top).2.le

theorem value_previous_le {x : Float} (number : IsNumber x) : value (previous x) ≤ value x := by
  have mirrored := value_le_next (isNumber_neg.2 number)
  rw [value_neg] at mirrored
  rw [previous, value_neg]
  exact EReal.neg_le_of_neg_le mirrored

/-- The next number is the least one above. -/
theorem next_le {x y : Float} (numberX : IsNumber x) (numberY : IsNumber y) (less : value x < value y) :
    value (next x) ≤ value y := by
  obtain ⟨k, small, sign⟩ := exists_magnitude numberY
  have nonneg := valueOf_decode_nonneg small
  obtain ⟨n, below, ⟨magnitude, decoded⟩ | ⟨magnitude, decoded⟩⟩ :=
    unpack_next numberX (lt_of_lt_of_le less le_top).ne
  · rw [value, decoded]
    rw [magnitude] at less
    rcases sign with ⟨-, same⟩ | ⟨-, same⟩ <;> rw [same] at less ⊢
    · refine valueOf_decode_mono ?_ small
      by_contra smaller
      exact absurd (valueOf_decode_mono (by omega) below.le) (not_le.2 less)
    · have negative : -valueOf (decode k) ≤ 0 := by simpa using nonneg
      exact absurd (less.trans_le negative) (not_lt.2 (valueOf_decode_nonneg below.le))
  · rw [value, decoded, valueOf_neg]
    rw [magnitude] at less
    rcases sign with ⟨-, same⟩ | ⟨-, same⟩ <;> rw [same] at less ⊢
    · have negative : -valueOf (decode n) ≤ 0 := by simpa using valueOf_decode_nonneg below.le
      exact negative.trans nonneg
    · rw [EReal.neg_le_neg_iff]
      refine valueOf_decode_mono ?_ below.le
      by_contra greater
      exact absurd (valueOf_decode_mono (by omega) small) (not_le.2 (EReal.neg_lt_neg_iff.1 less))

/-- Steps keep the order, and lead from equal numbers to equal ones. -/
theorem next_mono {x y : Float} (numberX : IsNumber x) (numberY : IsNumber y) (le : value x ≤ value y) :
    value (next x) ≤ value (next y) := by
  rcases eq_or_lt_of_le le with same | less
  · by_cases top : value x = ⊤
    · rw [next_top numberX top, next_top numberY (same ▸ top), same]
    · obtain ⟨number, greater⟩ := value_lt_next numberY (same ▸ top)
      exact next_le numberX number (same ▸ greater)
  · exact (next_le numberX numberY less).trans (value_le_next numberY)

theorem previous_mono {x y : Float} (numberX : IsNumber x) (numberY : IsNumber y) (le : value x ≤ value y) :
    value (previous x) ≤ value (previous y) := by
  have mirrored := next_mono (isNumber_neg.2 numberY) (isNumber_neg.2 numberX) (by simpa using le)
  rwa [previous, previous, value_neg, value_neg, EReal.neg_le_neg_iff]

/-- The previous number is the greatest one below. -/
theorem le_previous {x y : Float} (numberX : IsNumber x) (numberY : IsNumber y) (less : value y < value x) :
    value y ≤ value (previous x) := by
  have mirrored := next_le (isNumber_neg.2 numberX) (isNumber_neg.2 numberY) (by simpa using less)
  rw [value_neg] at mirrored
  rw [previous, value_neg]
  exact EReal.le_neg_of_le_neg mirrored

theorem value_previous_lt {x : Float} (number : IsNumber x) (bounded : value x ≠ ⊥) :
    value (previous x) < value x := by
  have mirrored := (value_lt_next (isNumber_neg.2 number) (by simpa using bounded)).2
  rw [value_neg] at mirrored
  rw [previous, value_neg]
  exact EReal.neg_lt_comm.1 mirrored

theorem previous_bot {x : Float} (number : IsNumber x) (bottom : value x = ⊥) :
    value (previous x) = ⊥ := by
  rw [previous, next_top (isNumber_neg.2 number) (by rw [value_neg, bottom, EReal.neg_bot]), value_neg,
    value_neg, neg_neg, bottom]

/-- Equal numbers have the same neighbour. -/
theorem value_previous_congr {x y : Float} (numberX : IsNumber x) (numberY : IsNumber y)
    (same : value x = value y) : value (previous x) = value (previous y) :=
  le_antisymm (previous_mono numberX numberY same.le) (previous_mono numberY numberX same.ge)

/-- Nothing lies between a number and the next one, so a step up and a step down lead back. -/
theorem value_previous_next {x : Float} (number : IsNumber x) (bounded : value x ≠ ⊤) :
    value (previous (next x)) = value x := by
  obtain ⟨numberNext, above⟩ := value_lt_next number bounded
  have back := isNumber_previous numberNext
  refine le_antisymm ?_ (le_previous numberNext number above)
  by_contra beyond
  have further := next_le number back (not_le.1 beyond)
  exact absurd (value_previous_lt numberNext above.ne_bot) (not_lt.2 further)

theorem value_next_previous {x : Float} (number : IsNumber x) (bounded : value x ≠ ⊥) :
    value (next (previous x)) = value x := by
  have mirrored := value_previous_next (isNumber_neg.2 number) (by simpa using bounded)
  rwa [previous, value_neg, value_neg, neg_inj] at mirrored

/-- No number lies strictly between a rounded number and the least one above it. -/
theorem IsRounding.le_next {r : ℝ} {x : Float} (rounding : IsRounding r x) :
    (r : EReal) ≤ value (next x) := by
  by_cases top : value x = ⊤
  · rw [next_top rounding.isNumber top, top]
    exact le_top
  · obtain ⟨number, above⟩ := value_lt_next rounding.isNumber top
    by_contra less
    have between := (rounding.faithful _ (canonical_unpack _) number).1 (not_le.1 less).le
    exact absurd above (not_lt.2 between)

/-- No number lies strictly between a rounded number and the greatest one below it. -/
theorem IsRounding.previous_le {r : ℝ} {x : Float} (rounding : IsRounding r x) :
    value (previous x) ≤ r := by
  have mirrored : IsRounding (-r) (-x) :=
    { isNumber := isNumber_neg.2 rounding.isNumber
      nearest := by
        rw [value_neg]
        exact rounding.nearest.neg }
  have := mirrored.le_next
  rw [EReal.coe_neg] at this
  rw [previous, value_neg]
  exact EReal.neg_le_of_neg_le this

/-! ## Neighbours in the computed order -/

/-- A number above another one, such that no number lies between the two. -/
structure IsLeastAbove (x y : Float) : Prop where
  above : x < y
  least : ∀ z, x < z → y ≤ z

/-- A number below another one, such that no number lies between the two. -/
structure IsGreatestBelow (x y : Float) : Prop where
  below : y < x
  greatest : ∀ z, z < x → z ≤ y

theorem isLeastAbove_next {x : Float} (number : IsNumber x) (bounded : value x ≠ ⊤) :
    IsLeastAbove x (next x) := by
  obtain ⟨numberNext, above⟩ := value_lt_next number bounded
  refine ⟨lt_iff.2 ⟨number, numberNext, above⟩, fun z greater => ?_⟩
  obtain ⟨-, numberZ, less⟩ := lt_iff.1 greater
  exact le_iff.2 ⟨numberNext, numberZ, next_le number numberZ less⟩

theorem isGreatestBelow_previous {x : Float} (number : IsNumber x) (bounded : value x ≠ ⊥) :
    IsGreatestBelow x (previous x) := by
  have numberPrevious := isNumber_previous number
  refine ⟨lt_iff.2 ⟨numberPrevious, number, value_previous_lt number bounded⟩, fun z smaller => ?_⟩
  obtain ⟨numberZ, -, less⟩ := lt_iff.1 smaller
  exact le_iff.2 ⟨numberZ, numberPrevious, le_previous number numberZ less⟩

/-- For every pattern that is not NaN the next number is the least one above and the previous number is the greatest
    one below, except that the infinities stay where there is nothing beyond them. From a finite number a step in one
    direction and a step in the other lead back to it, and steps keep the order. All of it holds in the computed order,
    in which the two zeros are equal. -/
theorem neighbours_exact (bits : UInt64) (number : IsNumber (Float.ofBits bits)) :
    let x := Float.ofBits bits
    (if x == infinity then (next x == infinity) = true else IsLeastAbove x (next x)) ∧
      (if x == -infinity then (previous x == -infinity) = true else IsGreatestBelow x (previous x)) ∧
      (x.isFinite = true → (next (previous x) == x) = true ∧ (previous (next x) == x) = true) ∧
      ∀ y, x ≤ y → next x ≤ next y ∧ previous x ≤ previous y := by
  intro x
  have numberX : IsNumber x := number
  have isTop : (x == infinity) = true ↔ value x = ⊤ := by
    simp only [beq_iff, numberX, isNumber_infinity, value_infinity, true_and]
  have isBottom : (x == -infinity) = true ↔ value x = ⊥ := by
    simp only [beq_iff, numberX, isNumber_neg, isNumber_infinity, value_neg, value_infinity, EReal.neg_top,
      true_and]
  have numberNext := isNumber_next numberX
  have numberPrevious := isNumber_previous numberX
  refine ⟨?_, ?_, fun finite => ?_, fun y le => ?_⟩
  · split_ifs with top
    · rwa [next_top numberX (isTop.1 top)]
    · exact isLeastAbove_next numberX fun reached => top (isTop.2 reached)
  · split_ifs with bottom
    · exact beq_iff.2 ⟨numberPrevious, isNumber_neg.2 isNumber_infinity,
        by simpa using previous_bot numberX (isBottom.1 bottom)⟩
    · exact isGreatestBelow_previous numberX fun reached => bottom (isBottom.2 reached)
  · obtain ⟨r, real⟩ := exists_real_of_isFinite finite
    have notTop : value x ≠ ⊤ := real ▸ EReal.coe_ne_top r
    have notBottom : value x ≠ ⊥ := real ▸ EReal.coe_ne_bot r
    exact ⟨beq_iff.2 ⟨isNumber_next numberPrevious, numberX, value_next_previous numberX notBottom⟩,
      beq_iff.2 ⟨isNumber_previous numberNext, numberX, value_previous_next numberX notTop⟩⟩
  · obtain ⟨-, numberY, less⟩ := le_iff.1 le
    exact ⟨le_iff.2 ⟨numberNext, isNumber_next numberY, next_mono numberX numberY less⟩,
      le_iff.2 ⟨numberPrevious, isNumber_previous numberY, previous_mono numberX numberY less⟩⟩

/-- Above the greatest negative number lies the negative zero, from which a step down leads back, and the neighbours
    of this number lie below those of zero. -/
theorem neighbours_exact_below_zero :
    let x := Float.ofBits 0x8000000000000001
    IsNumber x ∧ x.isFinite = true ∧ x ≤ 0.0 ∧ next x = -0.0 ∧ IsLeastAbove x (next x) ∧
      (previous (next x) == x) = true ∧ next x ≤ next 0.0 ∧ previous x ≤ previous 0.0 := by
  intro x
  have number : x.isNaN = false := by decide +kernel
  have finite : x.isFinite = true := by decide +kernel
  have below : x ≤ 0.0 := by decide +kernel
  obtain ⟨above, -, back, mono⟩ := neighbours_exact 0x8000000000000001 number
  rw [if_neg (by decide +kernel)] at above
  exact ⟨number, finite, below, by decide +kernel, above, (back finite).2, mono 0.0 below⟩

end StatBounds.Binary64
