import Mathlib
import StatBounds.Binary64.Basic

/-! # Binary64 numbers as extended reals

A number other than NaN stands for an extended real. The comparisons of binary64 numbers, which go by
exponents and significands, are those of the extended reals, because a bit pattern decodes to only one
exponent and significand.
-/

namespace StatBounds.Binary64

open Float.Model (Format)
open Float.Model.UnpackedFloat (Sign unpackMantissa unpackExponent unpackSign packComponents)

/-- Definitions over the reals refer to the proof behind the numeral two by this name. -/
instance atLeastTwo_two : Nat.AtLeastTwo 2 := inferInstance

/-- A number that is taken apart into sign, significand and exponent. -/
abbrev Unpacked := Float.Model.UnpackedFloat

/-- The extended real of a decoded number. NaN has none and is given the value zero. -/
noncomputable def valueOf : Unpacked → EReal
  | .infinity .positive => ⊤
  | .infinity .negative => ⊥
  | .notANumber | .zero _ => 0
  | .finite sign significand exponent _ =>
      ((sign.apply significand : ℤ) * (2 : ℝ) ^ exponent : ℝ)

/-- The form in which bit patterns are decoded: the leading bit of the significand has its fixed place,
    unless the exponent is already the least one. -/
def Canonical : Unpacked → Prop
  | .finite _ significand exponent _ =>
      significand < 2 ^ 53 ∧ -1074 ≤ exponent ∧ exponent ≤ 971 ∧
        (2 ^ 52 ≤ significand ∨ exponent = -1074)
  | _ => True

/-! ## Decoding and encoding -/

theorem append_implicit (fraction : BitVec 52) : (1#1 ++ fraction).toNat = 2 ^ 52 + fraction.toNat := by
  rw [BitVec.toNat_append, ← Nat.shiftLeft_add_eq_or_of_lt fraction.isLt]
  simp [Nat.shiftLeft_eq]

theorem canonical_unpack (bits : BitVec 64) :
    Canonical (Float.Model.UnpackedFloat.unpack Format.binary64 bits) := by
  let exponent : BitVec 11 := @unpackExponent Format.binary64 bits
  let fraction : BitVec 52 := @unpackMantissa Format.binary64 bits
  have width : exponent.toNat < 2 ^ 11 := exponent.isLt
  have fractionWidth : fraction.toNat < 2 ^ 52 := fraction.isLt
  change Canonical (if exponent = -1#11 then if fraction = 0#52 then _ else _ else
    if exponent = 0#11 then if h : fraction = 0#52 then _ else .finite _ fraction.toNat
      ((exponent.toNat : ℤ) - (1023 + 52) + 1) _
    else .finite _ (1#1 ++ fraction).toNat ((exponent.toNat : ℤ) - (1023 + 52)) _)
  split_ifs with top none zero none
  · trivial
  · trivial
  · trivial
  · simp only [Canonical, zero, BitVec.toNat_ofNat]
    omega
  · have notTop : exponent.toNat ≠ 2047 := fun same =>
      top (BitVec.eq_of_toNat_eq (by simpa using same))
    have notZero : exponent.toNat ≠ 0 := fun same =>
      zero (BitVec.eq_of_toNat_eq (by simpa using same))
    simp only [Canonical, append_implicit]
    omega

private theorem unpackSign_packComponents (sign : Sign) (exponent : BitVec 11)
    (fraction : BitVec 52) :
    unpackSign (packComponents Format.binary64 sign exponent fraction) = sign.toBitVec := by
  change (sign.toBitVec ++ exponent ++ fraction).extractLsb' 63 1 = sign.toBitVec
  rw [BitVec.extractLsb'_append_eq_of_le (by decide),
    BitVec.extractLsb'_append_eq_of_le (by decide)]
  cases sign <;> rfl

theorem unpack_packComponents (sign : Sign) (exponent : BitVec 11) (fraction : BitVec 52) :
    Float.Model.UnpackedFloat.unpack Format.binary64
        (packComponents Format.binary64 sign exponent fraction) =
      if exponent = -1#11 then if fraction = 0#52 then .infinity sign else .notANumber
      else if exponent = 0#11 then
        if h : fraction = 0#52 then .zero sign
        else .finite sign fraction.toNat (-1074) (by simpa [BitVec.toNat_pos, BitVec.pos_iff_ne_zero])
      else .finite sign (1#1 ++ fraction).toNat ((exponent.toNat : ℤ) - 1075)
        (by rw [append_implicit]; omega) := by
  have decoded : Sign.ofBitVec sign.toBitVec = sign := by cases sign <;> rfl
  simp only [Float.Model.UnpackedFloat.unpack,
    Float.Model.UnpackedFloat.unpackMantissa_packComponents,
    Float.Model.UnpackedFloat.unpackExponent_packComponents, unpackSign_packComponents, decoded]
  split_ifs with top none zero none
  · rfl
  · rfl
  · rfl
  · subst zero
    rfl
  · rfl

theorem unpack_pack {u : Unpacked} (canonical : Canonical u) : (Float.Model.pack u).unpack = u := by
  change Float.Model.UnpackedFloat.unpack Format.binary64
    (Float.Model.UnpackedFloat.pack Format.binary64 u) = u
  cases u with
  | infinity sign => exact unpack_packComponents sign _ _
  | notANumber => exact unpack_packComponents _ _ _
  | zero sign => exact unpack_packComponents sign _ _
  | finite sign m e positive =>
      obtain ⟨small, low, high, normal⟩ := canonical
      have fits : ¬ 2 ^ 11 ≤ (e + 1023 + 52).toNat + 1 := by omega
      by_cases implicit : 2 ^ 52 ≤ m
      · have length : m.log2 + 1 = 53 := by
          have := (Nat.log2_eq_iff (n := m) (k := 52) (by omega)).2 ⟨implicit, small⟩
          omega
        have exponent : (BitVec.ofNat 11 (e + 1023 + 52).toNat).toNat = (e + 1075).toNat := by
          rw [BitVec.toNat_ofNat]
          omega
        have notTop : BitVec.ofNat 11 (e + 1023 + 52).toNat ≠ -1#11 := by
          intro same
          have := congrArg BitVec.toNat same
          rw [exponent] at this
          simp at this
          omega
        have notZero : BitVec.ofNat 11 (e + 1023 + 52).toNat ≠ 0#11 := by
          intro same
          have := congrArg BitVec.toNat same
          rw [exponent] at this
          simp at this
          omega
        have significand : (1#1 ++ BitVec.ofNat 52 m).toNat = m := by
          rw [append_implicit, BitVec.toNat_ofNat]
          omega
        change Float.Model.UnpackedFloat.unpack Format.binary64
          (if 2 ^ 11 ≤ (e + 1023 + 52).toNat + 1 then _ else
            if m.log2 + 1 = 53 then packComponents Format.binary64 sign
              (BitVec.ofNat 11 (e + 1023 + 52).toNat) (BitVec.ofNat 52 m) else _) = _
        rw [if_neg fits, if_pos length, unpack_packComponents, if_neg notTop, if_neg notZero]
        simp only [significand, exponent]
        congr 1
        omega
      · have length : ¬ m.log2 + 1 = 53 := by
          have := (Nat.log2_lt (n := m) (k := 52) (by omega)).2 (by omega)
          omega
        have fraction : (BitVec.ofNat 52 m).toNat = m := by
          rw [BitVec.toNat_ofNat]
          omega
        have notZero : BitVec.ofNat 52 m ≠ 0#52 := by
          intro same
          have := congrArg BitVec.toNat same
          rw [fraction] at this
          simp at this
          omega
        change Float.Model.UnpackedFloat.unpack Format.binary64
          (if 2 ^ 11 ≤ (e + 1023 + 52).toNat + 1 then _ else
            if m.log2 + 1 = 53 then _ else
              packComponents Format.binary64 sign 0#11 (BitVec.ofNat 52 m)) = _
        rw [if_neg fits, if_neg length, unpack_packComponents, if_neg (by decide), if_pos rfl,
          dif_neg notZero]
        simp only [fraction]
        congr 1
        omega

/-- A number whose exponent does not fit is encoded as an infinity. -/
theorem unpack_pack_overflow (sign : Sign) {m : Nat} {e : Int} (positive : 0 < m) (big : 972 ≤ e) :
    (Float.Model.pack (.finite sign m e positive)).unpack = .infinity sign := by
  change Float.Model.UnpackedFloat.unpack Format.binary64
    (if 2 ^ 11 ≤ (e + 1023 + 52).toNat + 1 then packComponents Format.binary64 sign (-1#11) 0 else _) = _
  rw [if_pos (by omega)]
  exact unpack_packComponents sign _ _

/-! ## Comparison -/

theorem magnitude_pos {m : Nat} (e : Int) (positive : 0 < m) : 0 < (m : ℝ) * (2 : ℝ) ^ e := by
  have : (0 : ℝ) < m := by exact_mod_cast positive
  positivity

theorem magnitude_lt {m₁ m₂ : Nat} {e₁ e₂ : Int} (small : m₁ < 2 ^ 53) (normal : 2 ^ 52 ≤ m₂)
    (less : e₁ < e₂) : (m₁ : ℝ) * 2 ^ e₁ < m₂ * 2 ^ e₂ := by
  calc (m₁ : ℝ) * 2 ^ e₁ < 2 ^ 53 * 2 ^ e₁ := by
        gcongr
        exact_mod_cast small
    _ = 2 ^ 52 * 2 ^ (e₁ + 1) := by
        rw [zpow_add₀ (by norm_num)]
        ring
    _ ≤ m₂ * 2 ^ e₂ := by
        gcongr
        · exact_mod_cast normal
        · norm_num
        · omega

private theorem compare_magnitude {m₁ m₂ : Nat} {e₁ e₂ : Int}
    (canonical₁ : m₁ < 2 ^ 53 ∧ -1074 ≤ e₁ ∧ e₁ ≤ 971 ∧ (2 ^ 52 ≤ m₁ ∨ e₁ = -1074))
    (canonical₂ : m₂ < 2 ^ 53 ∧ -1074 ≤ e₂ ∧ e₂ ≤ 971 ∧ (2 ^ 52 ≤ m₂ ∨ e₂ = -1074)) :
    (compare e₁ e₂).then (compare m₁ m₂) = cmp ((m₁ : ℝ) * 2 ^ e₁) (m₂ * 2 ^ e₂) := by
  obtain ⟨small₁, low₁, -, normal₁⟩ := canonical₁
  obtain ⟨small₂, low₂, -, normal₂⟩ := canonical₂
  rcases lt_trichotomy e₁ e₂ with less | rfl | greater
  · have := magnitude_lt small₁ (normal₂.resolve_right (by omega)) less
    rw [compare_lt_iff_lt.2 less, (cmp_eq_lt_iff _ _).2 this]
    rfl
  · rw [compare_eq_iff_eq.2 rfl, Ordering.eq_then, cmp_mul_pos_right (by positivity),
      Nat.strictMono_cast.cmp_map_eq, cmp_eq_compare]
  · have := magnitude_lt small₂ (normal₁.resolve_right (by omega)) greater
    rw [compare_gt_iff_gt.2 greater, (cmp_eq_gt_iff _ _).2 this]
    rfl

theorem valueOf_finite_positive (m : Nat) (e : Int) (positive : 0 < m) :
    valueOf (.finite .positive m e positive) = ((m * 2 ^ e : ℝ) : EReal) := by
  simp [valueOf, Sign.apply]

theorem valueOf_finite_negative (m : Nat) (e : Int) (positive : 0 < m) :
    valueOf (.finite .negative m e positive) = ((-(m * 2 ^ e) : ℝ) : EReal) := by
  simp [valueOf, Sign.apply]

/-- Only the negative infinity stands for the least extended real. -/
theorem valueOf_eq_bot_iff {u : Unpacked} : valueOf u = ⊥ ↔ u = .infinity .negative := by
  rcases u with (_ | _) | _ | _ | ⟨sign, m, e, positive⟩
  · exact iff_of_true rfl rfl
  · exact iff_of_false (by simp [valueOf]) (by simp)
  · exact iff_of_false (by simp [valueOf]) (by simp)
  · exact iff_of_false (by simp [valueOf]) (by simp)
  · exact iff_of_false (EReal.coe_ne_bot _) (by simp)

/-- Only the positive infinity stands for the greatest extended real. -/
theorem valueOf_eq_top_iff {u : Unpacked} : valueOf u = ⊤ ↔ u = .infinity .positive := by
  rcases u with (_ | _) | _ | _ | ⟨sign, m, e, positive⟩
  · exact iff_of_false (by simp [valueOf]) (by simp)
  · exact iff_of_true rfl rfl
  · exact iff_of_false (by simp [valueOf]) (by simp)
  · exact iff_of_false (by simp [valueOf]) (by simp)
  · exact iff_of_false (EReal.coe_ne_top _) (by simp)

theorem compare_eq_cmp {u v : Unpacked} (canonicalU : Canonical u) (canonicalV : Canonical v)
    (numberU : u.isNaN = false) (numberV : v.isNaN = false) :
    u.compare v = some (cmp (valueOf u) (valueOf v)) := by
  symm
  rcases u with (_ | _) | _ | _ | ⟨_ | _, m₁, e₁, h₁⟩ <;>
    rcases v with (_ | _) | _ | _ | ⟨_ | _, m₂, e₂, h₂⟩ <;>
    simp only [Float.Model.UnpackedFloat.isNaN, Bool.true_eq_false] at numberU numberV <;>
    simp only [Float.Model.UnpackedFloat.compare, valueOf_finite_positive, valueOf_finite_negative,
      Option.some.injEq]
  case finite.negative.finite.negative =>
    rw [compare_magnitude canonicalU canonicalV, EReal.coe_strictMono.cmp_map_eq, cmp_swap]
    simp only [cmp, cmpUsing, neg_lt_neg_iff]
  case finite.positive.finite.positive =>
    rw [compare_magnitude canonicalU canonicalV, EReal.coe_strictMono.cmp_map_eq]
  -- Signs and infinities decide all other comparisons.
  all_goals
    try have positive₁ := magnitude_pos e₁ h₁
    try have positive₂ := magnitude_pos e₂ h₂
    simp only [valueOf, compare, cmp_eq_lt_iff, cmp_eq_gt_iff, cmp_eq_eq_iff, EReal.bot_lt_coe,
      EReal.coe_lt_top, EReal.bot_lt_zero, EReal.zero_lt_top, bot_lt_top]
  all_goals norm_cast
  all_goals linarith

/-! ## Numbers and their values -/

/-- The extended real that a number stands for. -/
noncomputable def value (x : Float) : EReal :=
  valueOf x.toModel.unpack

/-- A binary64 number that is not NaN. -/
def IsNumber (x : Float) : Prop :=
  x.isNaN = false

private theorem compare_isNaN {u v : Unpacked} (nan : u.isNaN = true ∨ v.isNaN = true) :
    u.compare v = none := by
  cases u <;> cases v <;> simp_all [Float.Model.UnpackedFloat.isNaN, Float.Model.UnpackedFloat.compare]

private theorem compare_toModel (x y : Float) :
    x.toModel.unpack.compare y.toModel.unpack =
      if x.isNaN || y.isNaN then none else some (cmp (value x) (value y)) := by
  split_ifs with nan
  · simp only [Bool.or_eq_true] at nan
    exact compare_isNaN nan
  · simp only [Bool.or_eq_true, not_or, Bool.not_eq_true] at nan
    exact compare_eq_cmp (canonical_unpack _) (canonical_unpack _) nan.1 nan.2

theorem lt_iff {x y : Float} : x < y ↔ IsNumber x ∧ IsNumber y ∧ value x < value y := by
  have unfolded : x < y ↔ x.toModel.unpack.compare y.toModel.unpack = some .lt := by
    change (decide (x.toModel < y.toModel)) = true ↔ _
    rw [decide_eq_true_iff]
    change Float.Model.UnpackedFloat.lt _ _ = true ↔ _
    rw [Float.Model.UnpackedFloat.lt, beq_iff_eq]
  rw [unfolded, compare_toModel, IsNumber, IsNumber]
  cases x.isNaN <;> cases y.isNaN <;> simp [cmp_eq_lt_iff]

theorem le_iff {x y : Float} : x ≤ y ↔ IsNumber x ∧ IsNumber y ∧ value x ≤ value y := by
  have unfolded : x ≤ y ↔
      (x.toModel.unpack.compare y.toModel.unpack).any (·.isLE) = true := by
    change (decide (x.toModel ≤ y.toModel)) = true ↔ _
    rw [decide_eq_true_iff]
    rfl
  rw [unfolded, compare_toModel, IsNumber, IsNumber]
  cases x.isNaN <;> cases y.isNaN <;> simp
  rw [← not_lt, ← cmp_eq_gt_iff]
  cases cmp (value x) (value y) <;> simp

theorem beq_iff {x y : Float} : (x == y) = true ↔ IsNumber x ∧ IsNumber y ∧ value x = value y := by
  have unfolded : (x == y) = true ↔
      x.toModel.unpack.compare y.toModel.unpack = some .eq := by
    change Float.Model.UnpackedFloat.beq _ _ = true ↔ _
    rw [Float.Model.UnpackedFloat.beq, beq_iff_eq]
  rw [unfolded, compare_toModel, IsNumber, IsNumber]
  cases x.isNaN <;> cases y.isNaN <;> simp [cmp_eq_eq_iff]

theorem not_lt_iff {x y : Float} (numberX : IsNumber x) (numberY : IsNumber y) :
    ¬ x < y ↔ value y ≤ value x := by
  rw [lt_iff]
  simp [numberX, numberY]

/-! ## Negation -/

theorem canonical_neg {u : Unpacked} (canonical : Canonical u) : Canonical u.neg := by
  cases u <;> exact canonical

theorem valueOf_neg (u : Unpacked) : valueOf u.neg = -valueOf u := by
  rcases u with (_ | _) | _ | _ | ⟨_ | _, m, e, positive⟩
  · exact EReal.neg_bot.symm
  · exact EReal.neg_top.symm
  · exact neg_zero.symm
  · exact neg_zero.symm
  · change valueOf (.finite .positive m e positive) = _
    rw [valueOf_finite_positive, valueOf_finite_negative, EReal.coe_neg, neg_neg]
  · change valueOf (.finite .negative m e positive) = _
    rw [valueOf_finite_positive, valueOf_finite_negative, EReal.coe_neg]

theorem unpack_neg (x : Float) : (-x).toModel.unpack = x.toModel.unpack.neg :=
  unpack_pack (canonical_neg (canonical_unpack _))

@[simp] theorem value_neg (x : Float) : value (-x) = -value x := by
  rw [value, unpack_neg, valueOf_neg, value]

@[simp] theorem isNaN_neg (x : Float) : (-x).isNaN = x.isNaN := by
  change (-x).toModel.unpack.isNaN = x.toModel.unpack.isNaN
  rw [unpack_neg]
  cases x.toModel.unpack <;> rfl

@[simp] theorem isNumber_neg {x : Float} : IsNumber (-x) ↔ IsNumber x := by
  rw [IsNumber, IsNumber, isNaN_neg]

/-! ## Infinities and constants -/

theorem unpack_infinity : infinity.toModel.unpack = .infinity .positive := by rfl

@[simp] theorem value_infinity : value infinity = ⊤ := by
  rw [value, unpack_infinity, valueOf]

@[simp] theorem isNumber_infinity : IsNumber infinity := by rfl

@[simp] theorem value_zero : value 0.0 = 0 := by rfl

@[simp] theorem isNumber_zero : IsNumber 0.0 := by rfl

theorem isInf_iff {x : Float} : x.isInf = true ↔ value x = ⊤ ∨ value x = ⊥ := by
  rw [value, valueOf_eq_top_iff, valueOf_eq_bot_iff]
  change x.toModel.unpack.isInf = true ↔ _
  rcases x.toModel.unpack with (_ | _) | _ | _ | _ <;> simp [Float.Model.UnpackedFloat.isInf]

theorem isInf_of_real {x : Float} {r : ℝ} (finite : value x = r) : x.isInf = false := by
  rw [← Bool.not_eq_true, isInf_iff, finite]
  simp

theorem exists_real_of_not_isInf {x : Float} (finite : x.isInf = false) : ∃ r : ℝ, value x = r := by
  rw [← Bool.not_eq_true, isInf_iff, not_or] at finite
  exact ⟨_, (EReal.coe_toReal finite.1 finite.2).symm⟩

theorem exists_real_of_isFinite {x : Float} (finite : x.isFinite = true) : ∃ r : ℝ, value x = r := by
  refine exists_real_of_not_isInf ?_
  change x.toModel.unpack.isFinite = true at finite
  change x.toModel.unpack.isInf = false
  cases unpacked : x.toModel.unpack <;>
    simp_all [Float.Model.UnpackedFloat.isFinite, Float.Model.UnpackedFloat.isInf]

theorem isFinite_of_real {x : Float} {r : ℝ} (number : IsNumber x) (real : value x = r) : x.isFinite = true := by
  have finite := isInf_of_real real
  change x.toModel.unpack.isNaN = false at number
  change x.toModel.unpack.isInf = false at finite
  change x.toModel.unpack.isFinite = true
  cases unpacked : x.toModel.unpack <;>
    simp_all [Float.Model.UnpackedFloat.isFinite, Float.Model.UnpackedFloat.isInf, Float.Model.UnpackedFloat.isNaN]

theorem unpack_one : (1.0 : Float).toModel.unpack = .finite .positive (2 ^ 52) (-52) (by decide) := by
  rfl

@[simp] theorem value_one : value 1.0 = 1 := by
  rw [value, unpack_one, valueOf_finite_positive]
  norm_num

@[simp] theorem isNumber_one : IsNumber 1.0 := by rfl

theorem value_two : value 2.0 = ((2 : ℝ) : EReal) := by
  have unpacked : (2.0 : Float).toModel.unpack = .finite .positive (2 ^ 52) (-51) (by decide) := by rfl
  rw [value, unpacked, valueOf_finite_positive]
  norm_num

end StatBounds.Binary64
