import StatBounds.Proofs.Binary64.Margins
import StatBounds.Proofs.Interval.Order

/-! # What products, quotients, squares and roots enclose

A product of extended reals is monotone in each factor, upwards or downwards, so it lies between two of the
products of the bounds. The other operations are enclosed by way of products, or are monotone themselves.
-/

namespace StatBounds

open Binary64 (IsNumber value infinity larger smaller next previous Rounds margin)

namespace Binary64

/-! ## The largest and the smallest of a list -/

theorem foldl_larger {ps : List Float} (numbers : ∀ p ∈ ps, IsNumber p) {start : Float} (number : IsNumber start) :
    IsNumber (ps.foldl larger start) ∧ value start ≤ value (ps.foldl larger start) ∧
      ∀ p ∈ ps, value p ≤ value (ps.foldl larger start) := by
  induction ps generalizing start with
  | nil => exact ⟨number, le_rfl, by simp⟩
  | cons p ps ih =>
      have same := value_larger number (numbers p (by simp))
      obtain ⟨isNumber, least, each⟩ := ih (fun q member => numbers q (by simp [member])) (isNumber_larger number p)
      rw [same] at least
      exact ⟨isNumber, (le_max_left _ _).trans least, List.forall_mem_cons.2 ⟨(le_max_right _ _).trans least, each⟩⟩

theorem foldl_smaller {ps : List Float} (numbers : ∀ p ∈ ps, IsNumber p) {start : Float} (number : IsNumber start) :
    IsNumber (ps.foldl smaller start) ∧ value (ps.foldl smaller start) ≤ value start ∧
      ∀ p ∈ ps, value (ps.foldl smaller start) ≤ value p := by
  induction ps generalizing start with
  | nil => exact ⟨number, le_rfl, by simp⟩
  | cons p ps ih =>
      have same := value_smaller number (numbers p (by simp))
      obtain ⟨isNumber, least, each⟩ := ih (fun q member => numbers q (by simp [member])) (isNumber_smaller number p)
      rw [same] at least
      exact ⟨isNumber, least.trans (min_le_left _ _), List.forall_mem_cons.2 ⟨least.trans (min_le_right _ _), each⟩⟩

end Binary64

namespace Interval

variable {i j : Interval} {x y : EReal}

/-! ## Products -/

theorem mul_between {a b : EReal} (lower : a ≤ x) (upper : x ≤ b) (y : EReal) :
    (a * y ≤ x * y ∧ x * y ≤ b * y) ∨ (b * y ≤ x * y ∧ x * y ≤ a * y) := by
  rcases le_total 0 y with nonneg | nonpos
  · exact .inl ⟨mul_le_mul_of_nonneg_right lower nonneg, mul_le_mul_of_nonneg_right upper nonneg⟩
  · exact .inr ⟨EReal.mul_le_mul_of_nonpos_right upper nonpos, EReal.mul_le_mul_of_nonpos_right lower nonpos⟩

theorem mul_between_corners (inI : i.Encloses x) (inJ : j.Encloses y) :
    (∃ a ∈ [i.lo, i.hi], ∃ b ∈ [j.lo, j.hi], value a * value b ≤ x * y) ∧
      ∃ a ∈ [i.lo, i.hi], ∃ b ∈ [j.lo, j.hi], x * y ≤ value a * value b := by
  have side (a : Float) : (∃ b ∈ [j.lo, j.hi], value a * value b ≤ value a * y) ∧
      ∃ b ∈ [j.lo, j.hi], value a * y ≤ value a * value b := by
    have between := mul_between inJ.lower inJ.upper (value a)
    simp only [EReal.mul_comm _ (value a)] at between
    rcases between with ⟨low, high⟩ | ⟨high, low⟩
    · exact ⟨⟨_, by simp, low⟩, _, by simp, high⟩
    · exact ⟨⟨_, by simp, high⟩, _, by simp, low⟩
  have below {a : Float} (member : a ∈ [i.lo, i.hi]) (le : value a * y ≤ x * y) :
      ∃ a ∈ [i.lo, i.hi], ∃ b ∈ [j.lo, j.hi], value a * value b ≤ x * y :=
    have ⟨b, memberB, low⟩ := (side a).1
    ⟨a, member, b, memberB, low.trans le⟩
  have above {a : Float} (member : a ∈ [i.lo, i.hi]) (le : x * y ≤ value a * y) :
      ∃ a ∈ [i.lo, i.hi], ∃ b ∈ [j.lo, j.hi], x * y ≤ value a * value b :=
    have ⟨b, memberB, high⟩ := (side a).2
    ⟨a, member, b, memberB, le.trans high⟩
  rcases mul_between inI.lower inI.upper y with ⟨low, high⟩ | ⟨low, high⟩
  · exact ⟨below (by simp) low, above (by simp) high⟩
  · exact ⟨below (by simp) low, above (by simp) high⟩

theorem rounds_boundProduct {a b : Float} (numberA : IsNumber a) (numberB : IsNumber b) :
    Rounds (value a * value b) (boundProduct a b) := by
  have isZero {c : Float} (number : IsNumber c) : (c == 0.0) = true ↔ value c = 0 := by
    simp only [Binary64.beq_iff, number, Binary64.isNumber_zero, Binary64.value_zero, true_and]
  have rounded := Binary64.rounds_zero
  unfold boundProduct
  simp only [Bool.or_eq_true, isZero numberA, isZero numberB]
  split_ifs with zero
  · rcases zero with zero | zero
    · rwa [zero, zero_mul]
    · rwa [zero, mul_zero]
  · rw [not_or] at zero
    exact Binary64.rounds_mul numberA numberB zero.1 zero.2

theorem exists_bounds_mul (properI : i.Proper) (properJ : j.Proper) (someI : i.isEmpty = false)
    (someJ : j.isEmpty = false) :
    ∃ low high, IsNumber low ∧ IsNumber high ∧ i * j = { lo := previous low, hi := next high } ∧
      ∀ a ∈ [i.lo, i.hi], ∀ b ∈ [j.lo, j.hi],
        value low ≤ value (boundProduct a b) ∧ value (boundProduct a b) ≤ value high := by
  let products := [boundProduct i.lo j.lo, boundProduct i.lo j.hi, boundProduct i.hi j.lo, boundProduct i.hi j.hi]
  have listed (a : Float) (inI : a ∈ [i.lo, i.hi]) (b : Float) (inJ : b ∈ [j.lo, j.hi]) :
      boundProduct a b ∈ products := by
    simp only [List.mem_cons, List.not_mem_nil, or_false] at inI inJ
    rcases inI with rfl | rfl <;> rcases inJ with rfl | rfl <;> simp [products]
  have numbers : ∀ p ∈ products, IsNumber p := by
    have number {a b : Float} (numberA : IsNumber a) (numberB : IsNumber b) :=
      (rounds_boundProduct numberA numberB).isNumber
    simp only [products, List.forall_mem_cons, List.not_mem_nil, false_imp_iff, implies_true, and_true]
    exact ⟨number properI.lo properJ.lo, number properI.lo properJ.hi, number properI.hi properJ.lo,
      number properI.hi properJ.hi⟩
  obtain ⟨numberLow, -, least⟩ := Binary64.foldl_smaller numbers Binary64.isNumber_infinity
  obtain ⟨numberHigh, -, greatest⟩ :=
    Binary64.foldl_larger numbers (Binary64.isNumber_neg.2 Binary64.isNumber_infinity)
  refine ⟨_, _, numberLow, numberHigh, ?_, fun a inI b inJ =>
    ⟨least _ (listed a inI b inJ), greatest _ (listed a inI b inJ)⟩⟩
  change Interval.mul i j = _
  have nanLow : (products.foldl smaller infinity).isNaN = false := numberLow
  have nanHigh : (products.foldl larger (-infinity)).isNaN = false := numberHigh
  simp only [Interval.mul, someI, someJ, Bool.or_false, Bool.false_eq_true, if_false, outward, products] at *
  rw [nanLow, nanHigh]
  rfl

theorem Encloses.mul (inI : i.Encloses x) (inJ : j.Encloses y) : (i * j).Encloses (x * y) := by
  obtain ⟨low, high, numberLow, numberHigh, same, bounds⟩ :=
    exists_bounds_mul inI.proper inJ.proper inI.notEmpty inJ.notEmpty
  have rounds {a b : Float} (memberA : a ∈ [i.lo, i.hi]) (memberB : b ∈ [j.lo, j.hi]) :
      Rounds (value a * value b) (boundProduct a b) := by
    simp only [List.mem_cons, List.not_mem_nil, or_false] at memberA memberB
    refine rounds_boundProduct ?_ ?_
    · rcases memberA with rfl | rfl
      exacts [inI.proper.lo, inI.proper.hi]
    · rcases memberB with rfl | rfl
      exacts [inJ.proper.lo, inJ.proper.hi]
  obtain ⟨⟨a, memberA, b, memberB, below⟩, c, memberC, d, memberD, above⟩ := mul_between_corners inI inJ
  rw [same]
  refine ⟨⟨Binary64.isNumber_previous numberLow, Binary64.isNumber_next numberHigh⟩, ?_, ?_⟩
  · have rounded := rounds memberA memberB
    calc value (previous low) ≤ value (previous (boundProduct a b)) :=
          Binary64.previous_mono numberLow rounded.isNumber (bounds a memberA b memberB).1
      _ ≤ value a * value b := rounded.previous_le
      _ ≤ x * y := below
  · have rounded := rounds memberC memberD
    calc x * y ≤ value c * value d := above
      _ ≤ value (next (boundProduct c d)) := rounded.le_next
      _ ≤ value (next high) := Binary64.next_mono rounded.isNumber numberHigh (bounds c memberC d memberD).2

/-- The upper bound of a product exceeds the product of upper bounds by more than a small part of it. -/
theorem le_mul_hi (properI : i.Proper) (properJ : j.Proper) (someI : i.isEmpty = false) (someJ : j.isEmpty = false)
    (nonneg : 0 ≤ value i.hi * value j.hi) :
    value i.hi * value j.hi * ((1 + margin : ℝ) : EReal) ≤ value (i * j).hi := by
  obtain ⟨low, high, -, numberHigh, same, bounds⟩ := exists_bounds_mul properI properJ someI someJ
  have rounded := rounds_boundProduct properI.hi properJ.hi
  rw [same]
  calc value i.hi * value j.hi * ((1 + margin : ℝ) : EReal) ≤ value (next (boundProduct i.hi j.hi)) :=
        rounded.le_next_margin nonneg
    _ ≤ value (next high) :=
        Binary64.next_mono rounded.isNumber numberHigh (bounds _ (by simp) _ (by simp)).2

/-! ## Quotients -/

theorem encloses_entire (x : EReal) : entire.Encloses x :=
  ⟨proper_entire, by simp [entire], by simp [entire]⟩

/-- Reciprocals of numbers of one sign are in the opposite order. -/
theorem inv_le_inv (le : x ≤ y) (sign : 0 < x ∨ y < 0) : y⁻¹ ≤ x⁻¹ := by
  rcases sign with positive | negative
  · exact EReal.inv_strictAntiOn.antitoneOn positive (positive.trans_le le) le
  · have mirrored := EReal.inv_strictAntiOn.antitoneOn (EReal.neg_pos.2 negative : 0 < -y)
      (EReal.neg_pos.2 (le.trans_lt negative) : 0 < -x) (EReal.neg_le_neg_iff.2 le)
    simpa only [EReal.inv_neg, EReal.neg_le_neg_iff] using mirrored

theorem sign_of_containsZero (proper : i.Proper) (apart : i.containsZero = false) :
    0 < value i.lo ∨ value i.hi < 0 := by
  simp only [containsZero, contains, Bool.and_eq_false_iff, decide_eq_false_iff_not, Binary64.le_iff, proper.lo,
    proper.hi, Binary64.isNumber_zero, Binary64.value_zero, true_and, not_le] at apart
  exact apart

/-- Apart from zero, the reciprocals of the bounds are the bounds of the reciprocals. -/
theorem Encloses.reciprocal (inI : i.Encloses x) (apart : i.containsZero = false) :
    (outward (1.0 / i.hi) (1.0 / i.lo)).Encloses x⁻¹ := by
  have sign := sign_of_containsZero inI.proper apart
  have ordered := inI.lower.trans inI.upper
  have rounds {a : Float} (number : IsNumber a) (low : value i.lo ≤ value a) (high : value a ≤ value i.hi) :
      Rounds (value a)⁻¹ (1.0 / a) := by
    refine Binary64.rounds_reciprocal number fun zero => ?_
    rw [zero] at low high
    exact sign.elim (fun positive => absurd low (not_le.2 positive)) fun negative => absurd high (not_le.2 negative)
  have upper := rounds inI.proper.lo le_rfl ordered
  have lower := rounds inI.proper.hi ordered le_rfl
  have nanLo : (1.0 / i.lo).isNaN = false := upper.isNumber
  have nanHi : (1.0 / i.hi).isNaN = false := lower.isNumber
  simp only [outward, nanLo, nanHi, Bool.false_eq_true, if_false]
  refine ⟨⟨Binary64.isNumber_previous lower.isNumber, Binary64.isNumber_next upper.isNumber⟩, ?_, ?_⟩
  · exact lower.previous_le.trans (inv_le_inv inI.upper (sign.imp_left fun positive => positive.trans_le inI.lower))
  · exact (inv_le_inv inI.lower (sign.imp_right fun negative => inI.upper.trans_lt negative)).trans upper.le_next

theorem div_eq_mul (someI : i.isEmpty = false) (someJ : j.isEmpty = false) (apart : j.containsZero = false) :
    i / j = i * outward (1.0 / j.hi) (1.0 / j.lo) := by
  change Interval.div i j = _
  rw [Interval.div, someI, someJ, apart]
  rfl

theorem Encloses.div (inI : i.Encloses x) (inJ : j.Encloses y) : (i / j).Encloses (x / y) := by
  cases apart : j.containsZero with
  | true =>
      have same : i / j = entire := by
        change Interval.div i j = _
        rw [Interval.div, inI.notEmpty, inJ.notEmpty, apart]
        rfl
      rw [same]
      exact encloses_entire _
  | false =>
      rw [div_eq_mul inI.notEmpty inJ.notEmpty apart]
      exact inI.mul (inJ.reciprocal apart)

/-- The upper bound of a quotient exceeds the greatest quotient of the bounds by more than a small part of it, once
    for the reciprocal and once for the product. -/
theorem le_div_hi (properI : i.Proper) (properJ : j.Proper) (someI : i.isEmpty = false) (someJ : j.isEmpty = false)
    (nonneg : 0 ≤ value i.hi) (positive : 0 < value j.lo) :
    value i.hi * ((value j.lo)⁻¹ * ((1 + margin : ℝ) : EReal)) * ((1 + margin : ℝ) : EReal) ≤
      value (i / j).hi := by
  have apart : j.containsZero = false := by
    rw [Bool.eq_false_iff]
    simp only [containsZero, contains, ne_eq, Bool.and_eq_true, decide_eq_true_eq, Binary64.le_iff, not_and]
    intro ⟨_, _, below⟩
    exact absurd positive (not_lt.2 (Binary64.value_zero ▸ below))
  have inJ : j.Encloses (value j.lo) := ⟨properJ, le_rfl, (isEmpty_eq_false_iff properJ).1 someJ⟩
  have inverse := inJ.reciprocal apart
  have rounded := Binary64.rounds_reciprocal properJ.lo positive.ne'
  have nan : (1.0 / j.lo).isNaN = false := rounded.isNumber
  have factor : (value j.lo)⁻¹ * ((1 + margin : ℝ) : EReal) ≤ value (outward (1.0 / j.hi) (1.0 / j.lo)).hi := by
    simp only [outward, nan, Bool.false_eq_true, if_false]
    exact rounded.le_next_margin (EReal.inv_nonneg_of_nonneg positive.le)
  have more : (0 : EReal) ≤ ((1 + margin : ℝ) : EReal) := by
    have := Binary64.margin_pos
    exact EReal.coe_nonneg.2 (by linarith)
  have least : 0 ≤ value (outward (1.0 / j.hi) (1.0 / j.lo)).hi :=
    (EReal.mul_nonneg (EReal.inv_nonneg_of_nonneg positive.le) more).trans factor
  rw [div_eq_mul someI someJ apart]
  refine le_trans ?_ (le_mul_hi properI inverse.proper someI inverse.notEmpty (EReal.mul_nonneg nonneg least))
  exact mul_le_mul_of_nonneg_right (mul_le_mul_of_nonneg_left factor nonneg) more

/-! ## Squares -/

theorem mul_self_le_of_nonneg (nonneg : 0 ≤ x) (le : x ≤ y) : x * x ≤ y * y :=
  (mul_le_mul_of_nonneg_left le nonneg).trans (mul_le_mul_of_nonneg_right le (nonneg.trans le))

theorem mul_self_le_of_nonpos (nonpos : y ≤ 0) (le : x ≤ y) : y * y ≤ x * x :=
  (EReal.mul_le_mul_of_nonpos_right le nonpos).trans
    ((EReal.mul_comm x y).le.trans (EReal.mul_le_mul_of_nonpos_right le (le.trans nonpos)))

theorem Encloses.sqr (inI : i.Encloses x) : i.sqr.Encloses (x * x) := by
  have roundsLo := Binary64.rounds_mul_self inI.proper.lo
  have roundsHi := Binary64.rounds_mul_self inI.proper.hi
  have nanLo : (i.lo * i.lo).isNaN = false := roundsLo.isNumber
  have nanHi : (i.hi * i.hi).isNaN = false := roundsHi.isNumber
  unfold Interval.sqr
  rw [inI.notEmpty, if_neg Bool.false_ne_true]
  split_ifs with nonneg nonpos
  · have nonneg : 0 ≤ value i.lo := Binary64.value_zero ▸ (Binary64.le_iff.1 nonneg).2.2
    simp only [outward, nanLo, nanHi, Bool.false_eq_true, if_false]
    exact ⟨⟨Binary64.isNumber_previous roundsLo.isNumber, Binary64.isNumber_next roundsHi.isNumber⟩,
      roundsLo.previous_le.trans (mul_self_le_of_nonneg nonneg inI.lower),
      (mul_self_le_of_nonneg (nonneg.trans inI.lower) inI.upper).trans roundsHi.le_next⟩
  · have nonpos : value i.hi ≤ 0 := Binary64.value_zero ▸ (Binary64.le_iff.1 nonpos).2.2
    simp only [outward, nanLo, nanHi, Bool.false_eq_true, if_false]
    exact ⟨⟨Binary64.isNumber_previous roundsHi.isNumber, Binary64.isNumber_next roundsLo.isNumber⟩,
      roundsHi.previous_le.trans (mul_self_le_of_nonpos nonpos inI.upper),
      (mul_self_le_of_nonpos (inI.upper.trans nonpos) inI.lower).trans roundsLo.le_next⟩
  · have larger := Binary64.value_larger roundsLo.isNumber roundsHi.isNumber
    have number := Binary64.isNumber_larger roundsLo.isNumber (i.hi * i.hi)
    refine encloses_ofBounds (fun _ => ?_) fun _ => ?_
    · rw [Binary64.value_zero]
      exact (le_total 0 x).elim (fun sign => EReal.mul_nonneg sign sign)
        fun sign => EReal.mul_nonneg_iff.2 (.inr ⟨sign, sign⟩)
    · rcases le_total 0 x with sign | sign
      · exact ((mul_self_le_of_nonneg sign inI.upper).trans roundsHi.le_next).trans
          (Binary64.next_mono roundsHi.isNumber number (larger ▸ le_max_right _ _))
      · exact ((mul_self_le_of_nonpos sign inI.lower).trans roundsLo.le_next).trans
          (Binary64.next_mono roundsLo.isNumber number (larger ▸ le_max_left _ _))

/-- The upper bound of the squares of numbers from zero up exceeds the greatest one by more than a small part of
    it. -/
theorem le_sqr_hi (proper : i.Proper) (some : i.isEmpty = false) (nonneg : 0 ≤ value i.lo) :
    value i.hi * value i.hi * ((1 + margin : ℝ) : EReal) ≤ value i.sqr.hi := by
  have rounded := Binary64.rounds_mul_self proper.hi
  have nan : (i.hi * i.hi).isNaN = false := rounded.isNumber
  have sign : 0 ≤ value i.hi := nonneg.trans ((isEmpty_eq_false_iff proper).1 some)
  have above : i.lo ≥ 0.0 := Binary64.le_iff.2 ⟨Binary64.isNumber_zero, proper.lo, Binary64.value_zero ▸ nonneg⟩
  unfold Interval.sqr
  rw [some, if_neg Bool.false_ne_true, if_pos above]
  simp only [outward, nan, Bool.false_eq_true, if_false]
  exact rounded.le_next_margin (EReal.mul_nonneg sign sign)

/-! ## Roots -/

theorem proper_nonNegative : nonNegative.Proper := ⟨by rfl, by rfl⟩

/-- The bounds of an intersection that is not empty. -/
theorem bounds_intersect (properI : i.Proper) (properJ : j.Proper) (some : (i.intersect j).isEmpty = false) :
    value (i.intersect j).lo = max (value i.lo) (value j.lo) ∧
      value (i.intersect j).hi = min (value i.hi) (value j.hi) := by
  unfold intersect at some ⊢
  dsimp only at some ⊢
  split_ifs at some ⊢
  · exact absurd some (by decide)
  · exact absurd some (by decide)
  · exact ⟨Binary64.value_larger properI.lo properJ.lo, Binary64.value_smaller properI.hi properJ.hi⟩

/-- The upper bound of the roots is not below the root of any number up to the upper bound. -/
theorem sqrt_le_hi (proper : i.Proper) (some : (i.intersect nonNegative).isEmpty = false) {r : ℝ} (nonneg : 0 ≤ r)
    (upper : r ≤ value i.hi) : ((√r : ℝ) : EReal) ≤ value i.sqrt.hi := by
  have number := proper_intersect proper nonNegative
  obtain ⟨-, bound⟩ := bounds_intersect proper proper_nonNegative some
  have upper : r ≤ value (i.intersect nonNegative).hi := by
    rw [bound]
    exact le_min upper (by simp [nonNegative])
  have hi : value i.sqrt.hi = ⊤ ∨ i.sqrt.hi = next (i.intersect nonNegative).hi.sqrt := by
    simp only [Interval.sqrt, some, Bool.false_eq_true, if_false, ofBounds]
    split_ifs
    · exact .inl Binary64.value_infinity
    · exact .inr rfl
  rcases hi with top | same
  · rw [top]
    exact le_top
  · rw [same]
    induction reading : value (i.intersect nonNegative).hi with
    | bot => exact absurd upper (by simp [reading])
    | top => exact le_top.trans (Binary64.rounds_sqrt_top reading).le_next
    | coe h =>
        rw [reading, EReal.coe_le_coe_iff] at upper
        have rounding := Binary64.isRounding_sqrt number.hi reading (nonneg.trans upper)
        exact (EReal.coe_le_coe_iff.2 (Real.sqrt_le_sqrt upper)).trans rounding.le_next

theorem Encloses.sqrt {r : ℝ} (inI : i.Encloses r) (nonneg : 0 ≤ r) : i.sqrt.Encloses ((√r : ℝ) : EReal) := by
  have inRoots : (i.intersect nonNegative).Encloses r :=
    inI.intersect ⟨proper_nonNegative, by simpa [nonNegative] using nonneg, by simp [nonNegative]⟩
  have some := inRoots.notEmpty
  obtain ⟨bound, -⟩ := bounds_intersect inI.proper proper_nonNegative some
  have low : 0 ≤ value (i.intersect nonNegative).lo := by
    rw [bound]
    exact le_max_of_le_right (by simp [nonNegative])
  have same : i.sqrt = ofBounds (larger (previous (i.intersect nonNegative).lo.sqrt) 0.0)
      (next (i.intersect nonNegative).hi.sqrt) := by
    simp only [Interval.sqrt, some, Bool.false_eq_true, if_false]
  have upper := sqrt_le_hi inI.proper some nonneg inI.upper
  rw [same] at upper ⊢
  refine ⟨proper_ofBounds _ _, ?_, upper⟩
  lift value (i.intersect nonNegative).lo to ℝ using
    ⟨(inRoots.lower.trans_lt (EReal.coe_lt_top r)).ne, (EReal.bot_lt_zero.trans_le low).ne'⟩ with l reading
  have rounding := Binary64.isRounding_sqrt inRoots.proper.lo reading.symm (EReal.coe_nonneg.1 low)
  have number := Binary64.isNumber_previous rounding.isNumber
  have least := Binary64.value_larger number Binary64.isNumber_zero
  have ordered : l ≤ r := EReal.coe_le_coe_iff.1 (reading ▸ inRoots.lower)
  have nan : (larger (previous (i.intersect nonNegative).lo.sqrt) 0.0).isNaN = false :=
    Binary64.isNumber_larger number 0.0
  simp only [ofBounds, nan, Bool.false_eq_true, if_false]
  rw [least, Binary64.value_zero]
  exact max_le (rounding.previous_le.trans (EReal.coe_le_coe_iff.2 (Real.sqrt_le_sqrt ordered)))
    (EReal.coe_nonneg.2 (Real.sqrt_nonneg r))

theorem Encloses.hull_left (inI : i.Encloses x) (proper : j.Proper) : (i.hull j).Encloses x := by
  cases some : j.isEmpty with
  | true =>
      have same : i.hull j = i := by
        rw [hull, inI.notEmpty, some]
        rfl
      rwa [same]
  | false =>
      obtain ⟨lower, upper⟩ := bounds_hull inI.proper proper inI.notEmpty some
      exact ⟨proper_hull inI.proper proper, lower.le.trans ((min_le_left _ _).trans inI.lower),
        inI.upper.trans ((le_max_left _ _).trans upper.ge)⟩

theorem Encloses.hull_right (inJ : j.Encloses x) (proper : i.Proper) : (i.hull j).Encloses x := by
  cases some : i.isEmpty with
  | true =>
      have same : i.hull j = j := by
        rw [hull, some]
        rfl
      rwa [same]
  | false =>
      obtain ⟨lower, upper⟩ := bounds_hull proper inJ.proper some inJ.notEmpty
      exact ⟨proper_hull proper inJ.proper, lower.le.trans ((min_le_right _ _).trans inJ.lower),
        inJ.upper.trans ((le_max_right _ _).trans upper.ge)⟩

/-- A number whose square lies in the image is a root of it, of either sign. -/
theorem Encloses.sqrPreimage {r : ℝ} (inI : i.Encloses r) (inJ : j.Encloses ((r * r : ℝ) : EReal)) :
    (i.sqrPreimage j).Encloses r := by
  have root := inJ.sqrt (mul_self_nonneg r)
  rw [Real.sqrt_mul_self_eq_abs] at root
  simp only [Interval.sqrPreimage, root.notEmpty, Bool.false_eq_true, if_false]
  have properI := proper_intersect inI.proper
  rcases abs_choice r with same | same
  · rw [same] at root
    exact (inI.intersect root).hull_left (properI _)
  · have mirrored := root.neg
    rw [same, neg_neg] at mirrored
    exact (inI.intersect mirrored).hull_right (properI _)

/-! ## All operations -/

/-- What the operations make of intervals holds what they make of real numbers from the intervals. Bounds may be
    infinite, and computed bounds may overflow or underflow. -/
theorem arithmetic_encloses {x y : ℝ} (inI : i.Encloses x) (inJ : j.Encloses y) :
    (i + j).Encloses ((x + y : ℝ) : EReal) ∧ (i - j).Encloses ((x - y : ℝ) : EReal) ∧
      (i * j).Encloses ((x * y : ℝ) : EReal) ∧ (y ≠ 0 → (i / j).Encloses ((x / y : ℝ) : EReal)) ∧
      (-i).Encloses ((-x : ℝ) : EReal) ∧ i.sqr.Encloses ((x ^ 2 : ℝ) : EReal) ∧
      (0 ≤ x → i.sqrt.Encloses ((√x : ℝ) : EReal)) ∧
      ∀ image : Interval, image.Encloses ((x ^ 2 : ℝ) : EReal) → (i.sqrPreimage image).Encloses x := by
  have product : (i * j).Encloses ((x * y : ℝ) : EReal) := by
    rw [EReal.coe_mul]
    exact inI.mul inJ
  have quotient : (i / j).Encloses ((x / y : ℝ) : EReal) := by
    rw [EReal.coe_div]
    exact inI.div inJ
  have square : i.sqr.Encloses ((x ^ 2 : ℝ) : EReal) := by
    rw [sq, EReal.coe_mul]
    exact inI.sqr
  refine ⟨inI.add inJ, inI.sub inJ, product, fun _ => quotient, inI.neg, square, inI.sqrt, fun image inImage => ?_⟩
  rw [sq] at inImage
  exact inI.sqrPreimage inImage

/-- Intervals without a lower and without an upper bound. -/
theorem arithmetic_encloses_unbounded :
    let i := ofBounds (-infinity) 2.0
    let j := ofBounds (-1.0) infinity
    (i - j).Encloses ((1 - 1 : ℝ) : EReal) ∧ (i / j).Encloses ((1 / 1 : ℝ) : EReal) ∧
      i.sqrt.Encloses ((√1 : ℝ) : EReal) ∧ (i.sqrPreimage j).Encloses ((1 : ℝ) : EReal) := by
  intro i j
  have order : value (-1.0) < (1 : EReal) ∧ (1 : EReal) < value 2.0 := by
    rw [← Binary64.value_one]
    exact ⟨(Binary64.lt_iff.1 (by decide)).2.2, (Binary64.lt_iff.1 (by decide)).2.2⟩
  have inI : i.Encloses ((1 : ℝ) : EReal) :=
    encloses_ofBounds (fun _ => by simp) fun _ => order.2.le
  have inJ : j.Encloses ((1 : ℝ) : EReal) :=
    encloses_ofBounds (fun _ => order.1.le) fun _ => by simp
  obtain ⟨-, difference, -, quotient, -, -, root, preimage⟩ := arithmetic_encloses inI inJ
  exact ⟨difference, quotient one_ne_zero, root zero_le_one, preimage j (by simpa using inJ)⟩

end Interval

end StatBounds
