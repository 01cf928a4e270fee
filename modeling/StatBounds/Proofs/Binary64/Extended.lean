import StatBounds.Proofs.Binary64.Neighbours
import StatBounds.Proofs.Binary64.Products

/-! # Rounding of extended reals

Interval bounds may be infinite. Arithmetic on such bounds rounds the arithmetic of the extended reals, where
only the infinities themselves have no nearest number to be rounded to. Rounding keeps the order, so bounds
that are computed from wider ones are wider.
-/

namespace StatBounds.Binary64

open Float.Model (Format)
open Float.Model.UnpackedFloat (Sign)

/-- The value that an extended real is rounded to. -/
inductive NearestTo : EReal → EReal → Prop
  | bot : NearestTo ⊥ ⊥
  | real {r : ℝ} {v : EReal} (nearest : Nearest r v) : NearestTo r v
  | top : NearestTo ⊤ ⊤

theorem NearestTo.neg {e v : EReal} (nearest : NearestTo e v) : NearestTo (-e) (-v) := by
  cases nearest with
  | bot => exact .top
  | real nearest => exact .real nearest.neg
  | top => exact .bot

theorem NearestTo.mono {e f v w : EReal} (left : NearestTo e v) (right : NearestTo f w) (le : e ≤ f) :
    v ≤ w := by
  cases left with
  | bot => exact bot_le
  | top =>
      obtain rfl := top_le_iff.1 le
      generalize top : (⊤ : EReal) = f at right
      cases right with
      | bot => exact absurd top (by simp)
      | real _ => exact absurd top (EReal.top_ne_coe _)
      | top => exact le_rfl
  | real nearest =>
      cases right with
      | bot => exact absurd (le_bot_iff.1 le) (EReal.coe_ne_bot _)
      | real nearest' => exact nearest.mono nearest' (EReal.coe_le_coe_iff.1 le)
      | top => exact le_top

/-- A number that is no NaN and that an extended real is rounded to. -/
structure Rounds (e : EReal) (x : Float) : Prop where
  isNumber : IsNumber x
  nearest : NearestTo e (value x)

theorem IsRounding.rounds {r : ℝ} {x : Float} (rounding : IsRounding r x) : Rounds r x :=
  ⟨rounding.isNumber, .real rounding.nearest⟩

theorem rounds_bot {x : Float} (number : IsNumber x) (bottom : value x = ⊥) : Rounds ⊥ x :=
  ⟨number, bottom ▸ .bot⟩

theorem rounds_top {x : Float} (number : IsNumber x) (top : value x = ⊤) : Rounds ⊤ x :=
  ⟨number, top ▸ .top⟩

/-- A number is its own rounding. -/
theorem rounds_self {x : Float} (number : IsNumber x) : Rounds (value x) x := by
  refine ⟨number, ?_⟩
  induction same : value x with
  | bot => exact .bot
  | top => exact .top
  | coe r => exact .real (same ▸ nearest_self (canonical_unpack _) same)

theorem rounds_zero : Rounds 0 0.0 :=
  value_zero ▸ rounds_self isNumber_zero

section

variable {e f : EReal} {x y : Float}

theorem Rounds.mono (left : Rounds e x) (right : Rounds f y) (le : e ≤ f) : value x ≤ value y :=
  left.nearest.mono right.nearest le

theorem Rounds.nonneg (rounds : Rounds e x) (nonneg : 0 ≤ e) : 0 ≤ value x :=
  value_zero ▸ rounds_zero.mono rounds nonneg

theorem Rounds.value_top (rounds : Rounds ⊤ x) : value x = ⊤ :=
  top_le_iff.1 (value_infinity ▸ (rounds_top isNumber_infinity value_infinity).mono rounds le_rfl)

theorem Rounds.neg (rounds : Rounds e x) : Rounds (-e) (-x) :=
  ⟨isNumber_neg.2 rounds.isNumber, value_neg x ▸ rounds.nearest.neg⟩

/-- No number lies strictly between a rounded number and the least one above it. -/
theorem Rounds.le_next (rounds : Rounds e x) : e ≤ value (next x) := by
  obtain ⟨number, nearest⟩ := rounds
  generalize same : value x = v at nearest
  cases nearest with
  | bot => exact bot_le
  | real nearest => exact IsRounding.le_next ⟨number, same ▸ nearest⟩
  | top => rw [next_top number same, same]

theorem Rounds.previous_le (rounds : Rounds e x) : value (previous x) ≤ e := by
  have mirrored := rounds.neg.le_next
  rw [previous, value_neg]
  exact EReal.neg_le_of_neg_le mirrored

end

/-! ## Sums -/

/-- Opposite infinities have no sum. -/
theorem isNaN_add {x y : Float} (top : value x = ⊤) (bottom : value y = ⊥) :
    (x + y).isNaN = true ∧ (y + x).isNaN = true := by
  have unpackX : x.toModel.unpack = .infinity .positive := valueOf_eq_top_iff.1 top
  have unpackY : y.toModel.unpack = .infinity .negative := valueOf_eq_bot_iff.1 bottom
  constructor
  · change (encode (x.toModel.unpack.add _ y.toModel.unpack)).isNaN = true
    rw [unpackX, unpackY]
    decide
  · change (encode (y.toModel.unpack.add _ x.toModel.unpack)).isNaN = true
    rw [unpackX, unpackY]
    decide

/-- The sum of two numbers is rounded, unless they are opposite infinities. -/
theorem rounds_add {x y : Float} (numberX : IsNumber x) (numberY : IsNumber y)
    (notX : ¬ (value x = ⊤ ∧ value y = ⊥)) (notY : ¬ (value x = ⊥ ∧ value y = ⊤)) :
    Rounds (value x + value y) (x + y) := by
  by_cases bottom : value x = ⊥ ∨ value y = ⊥
  · have belowX : value x ≠ ⊤ := fun top => bottom.elim (by simp [top]) fun same => notX ⟨top, same⟩
    have belowY : value y ≠ ⊤ := fun top => bottom.elim (fun same => notY ⟨same, top⟩) (by simp [top])
    obtain ⟨number, same⟩ := value_add_bot numberX numberY belowX belowY bottom
    rw [EReal.add_eq_bot_iff.2 bottom]
    exact rounds_bot number same
  · rw [not_or] at bottom
    by_cases top : value x = ⊤ ∨ value y = ⊤
    · obtain ⟨number, same⟩ := value_add_top numberX numberY bottom.1 bottom.2 top
      have sum : value x + value y = ⊤ := by
        rcases top with top | top <;> rw [top]
        · exact EReal.top_add_of_ne_bot bottom.2
        · exact EReal.add_top_of_ne_bot bottom.1
      rw [sum]
      exact rounds_top number same
    · rw [not_or] at top
      lift value x to ℝ using ⟨top.1, bottom.1⟩ with r valueX
      lift value y to ℝ using ⟨top.2, bottom.2⟩ with s valueY
      rw [← EReal.coe_add]
      exact (isRounding_add numberX numberY valueX.symm valueY.symm).rounds

/-- The sum of two numbers is rounded. Opposite infinities have none, and their sum as extended reals is the
    negative infinity, whichever sign each of them has. -/
theorem rounds_add_or_isNaN {x y : Float} (numberX : IsNumber x) (numberY : IsNumber y) :
    (Rounds (value x + value y) (x + y) ∧ -(-value x + -value y) = value x + value y) ∨
      ((x + y).isNaN = true ∧ value x + value y = ⊥ ∧ -value x + -value y = ⊥) := by
  by_cases notX : value x = ⊤ ∧ value y = ⊥
  · obtain ⟨top, bottom⟩ := notX
    exact .inr ⟨(isNaN_add top bottom).1, by simp [top, bottom], by simp [top, bottom]⟩
  · by_cases notY : value x = ⊥ ∧ value y = ⊤
    · obtain ⟨bottom, top⟩ := notY
      exact .inr ⟨(isNaN_add top bottom).2, by simp [top, bottom], by simp [top, bottom]⟩
    · refine .inl ⟨rounds_add numberX numberY notX notY, ?_⟩
      rw [EReal.neg_add, neg_neg, sub_eq_add_neg, neg_neg]
      · simpa [imp_iff_not_or] using notX
      · simpa [imp_iff_not_or] using notY

/-! ## Products, quotients and roots -/

section

variable {x y : Float}

theorem rounds_encode_infinity (sign : Sign) :
    Rounds (valueOf (.infinity sign)) (encode (.infinity sign)) := by
  cases sign with
  | positive => exact rounds_top (by rfl) (by rfl)
  | negative => exact rounds_bot (by rfl) (by rfl)

/-- A product with an infinity is an infinity, whose sign goes by the signs of both. -/
theorem rounds_mul_infinity (sign : Sign) {v : Unpacked} (number : v.isNaN = false) (nonzero : valueOf v ≠ 0) :
    Rounds (valueOf (.infinity sign) * valueOf v) (encode (.mul Format.binary64 (.infinity sign) v)) ∧
      Rounds (valueOf v * valueOf (.infinity sign)) (encode (.mul Format.binary64 v (.infinity sign))) := by
  obtain ⟨other, left, right, product⟩ : ∃ other,
      Float.Model.UnpackedFloat.mul Format.binary64 (.infinity sign) v = .infinity (sign * other) ∧
      Float.Model.UnpackedFloat.mul Format.binary64 v (.infinity sign) = .infinity (other * sign) ∧
      valueOf (.infinity sign) * valueOf v = valueOf (.infinity (sign * other)) := by
    rcases v with other | _ | other | ⟨other, m, e, positive⟩
    · refine ⟨other, rfl, rfl, ?_⟩
      cases sign <;> cases other <;> rfl
    · exact absurd number (by decide)
    · exact absurd rfl nonzero
    · refine ⟨other, rfl, rfl, ?_⟩
      have := magnitude_pos e positive
      cases sign <;> cases other
      · rw [valueOf_finite_negative]
        exact EReal.bot_mul_coe_of_neg (by linarith)
      · rw [valueOf_finite_positive]
        exact EReal.bot_mul_coe_of_pos (by linarith)
      · rw [valueOf_finite_negative]
        exact EReal.top_mul_coe_of_neg (by linarith)
      · rw [valueOf_finite_positive]
        exact EReal.top_mul_coe_of_pos (by linarith)
  have commute : other * sign = sign * other := by cases sign <;> cases other <;> rfl
  rw [left, right, EReal.mul_comm (valueOf v), product, commute]
  exact ⟨rounds_encode_infinity _, rounds_encode_infinity _⟩

/-- The product of two numbers other than zero is rounded. -/
theorem rounds_mul (numberX : IsNumber x) (numberY : IsNumber y) (nonzeroX : value x ≠ 0) (nonzeroY : value y ≠ 0) :
    Rounds (value x * value y) (x * y) := by
  have infinite {u : Unpacked} (infinite : valueOf u = ⊥ ∨ valueOf u = ⊤) : ∃ sign, u = .infinity sign :=
    infinite.elim (fun bottom => ⟨_, valueOf_eq_bot_iff.1 bottom⟩) fun top => ⟨_, valueOf_eq_top_iff.1 top⟩
  change Rounds (valueOf x.toModel.unpack * valueOf y.toModel.unpack)
    (encode (x.toModel.unpack.mul Format.binary64 y.toModel.unpack))
  by_cases infiniteX : value x = ⊥ ∨ value x = ⊤
  · obtain ⟨sign, same⟩ := infinite infiniteX
    rw [same]
    exact (rounds_mul_infinity sign numberY nonzeroY).1
  by_cases infiniteY : value y = ⊥ ∨ value y = ⊤
  · obtain ⟨sign, same⟩ := infinite infiniteY
    rw [same]
    exact (rounds_mul_infinity sign numberX nonzeroX).2
  rw [not_or] at infiniteX infiniteY
  change Rounds (value x * value y) (x * y)
  lift value x to ℝ using infiniteX.symm with r valueX
  lift value y to ℝ using infiniteY.symm with s valueY
  rw [← EReal.coe_mul]
  exact (isRounding_mul numberX numberY valueX.symm valueY.symm).rounds

/-- The square of a number is rounded. -/
theorem rounds_mul_self (number : IsNumber x) : Rounds (value x * value x) (x * x) := by
  by_cases zero : value x = 0
  · have valueX : value x = (0 : ℝ) := zero
    rw [valueX, ← EReal.coe_mul]
    exact (isRounding_mul number number valueX valueX).rounds
  · exact rounds_mul number number zero zero

/-- The reciprocal of a number other than zero is rounded. That of an infinity is zero. -/
theorem rounds_reciprocal (number : IsNumber x) (nonzero : value x ≠ 0) : Rounds (value x)⁻¹ (1.0 / x) := by
  have vanish {sign : Sign} (same : x.toModel.unpack = .infinity sign) : Rounds 0 (1.0 / x) := by
    change Rounds 0 (encode (.div Format.binary64 (1.0 : Float).toModel.unpack x.toModel.unpack))
    rw [same, unpack_one]
    cases sign with
    | positive => exact rounds_self (by rfl : IsNumber (encode (.zero .positive)))
    | negative => exact rounds_self (by rfl : IsNumber (encode (.zero .negative)))
  induction same : value x with
  | bot => exact vanish (valueOf_eq_bot_iff.1 same)
  | top => exact vanish (valueOf_eq_top_iff.1 same)
  | coe r =>
      have nonzero : r ≠ 0 := by
        rintro rfl
        exact nonzero same
      have rounding := isRounding_div isNumber_one number value_one same nonzero
      rw [← EReal.coe_inv, inv_eq_one_div]
      exact rounding.rounds

/-- Half of the positive infinity is the positive infinity. -/
theorem rounds_half_top (top : value x = ⊤) : Rounds ⊤ (x / 2.0) := by
  have same : x.toModel.unpack = .infinity .positive := valueOf_eq_top_iff.1 top
  change Rounds ⊤ (encode (x.toModel.unpack.div Format.binary64 (2.0 : Float).toModel.unpack))
  rw [same]
  exact rounds_encode_infinity .positive

/-- The root of the positive infinity is the positive infinity. -/
theorem rounds_sqrt_top (top : value x = ⊤) : Rounds ⊤ x.sqrt := by
  have same : x.toModel.unpack = .infinity .positive := valueOf_eq_top_iff.1 top
  change Rounds ⊤ (encode (x.toModel.unpack.sqrt Format.binary64))
  rw [same]
  exact rounds_encode_infinity .positive

end

end StatBounds.Binary64
