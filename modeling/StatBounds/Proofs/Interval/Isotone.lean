import StatBounds.Proofs.Interval.Products

/-! # Narrower intervals give narrower results

Every bound of a product is the rounding of a product of two bounds, and reciprocals, roots, hulls and preimages of
squares are computed from one bound at a time. So intervals within wider ones have results within the wider results.
A square is the exception: the squares of an interval around zero start at zero itself, and those of an interval on
one side of zero start one number below the least square, which is below zero if that square is computed as zero.
-/

namespace StatBounds

open Binary64 (IsNumber value infinity larger smaller next previous Rounds)

namespace Binary64

variable {x : Float}

/-! ## What folds take -/

/-- A fold that takes one of two numbers at a time ends with one of the numbers that it meets. -/
theorem foldl_mem {choose : Float → Float → Float} (one : ∀ x y, choose x y = x ∨ choose x y = y)
    (ps : List Float) (start : Float) : ps.foldl choose start ∈ start :: ps := by
  induction ps generalizing start with
  | nil => simp
  | cons p ps ih =>
      rcases List.mem_cons.1 (ih (choose start p)) with first | later
      · rw [List.foldl_cons, first]
        rcases one start p with same | same <;> simp [same]
      · exact List.mem_cons_of_mem _ (List.mem_cons_of_mem _ later)

/-! ## Roots of extended reals -/

/-- The root of an extended real from zero up. -/
noncomputable def root (e : EReal) : EReal :=
  if e = ⊤ then ⊤ else ((√e.toReal : ℝ) : EReal)

theorem root_mono {e f : EReal} (nonneg : 0 ≤ e) (le : e ≤ f) : root e ≤ root f := by
  unfold root
  by_cases top : f = ⊤
  · simp [top]
  · have below : e ≠ ⊤ := fun same => top (top_le_iff.1 (same ▸ le))
    have bottom : e ≠ ⊥ := (EReal.bot_lt_zero.trans_le nonneg).ne'
    rw [if_neg top, if_neg below, EReal.coe_le_coe_iff]
    exact Real.sqrt_le_sqrt (EReal.toReal_le_toReal le bottom top)

theorem rounds_sqrt (number : IsNumber x) (nonneg : 0 ≤ value x) : Rounds (root (value x)) x.sqrt := by
  unfold root
  by_cases top : value x = ⊤
  · rw [if_pos top]
    exact rounds_sqrt_top top
  · have bottom : value x ≠ ⊥ := (EReal.bot_lt_zero.trans_le nonneg).ne'
    have real : value x = ((value x).toReal : ℝ) := (EReal.coe_toReal top bottom).symm
    rw [if_neg top]
    exact (isRounding_sqrt number real (EReal.coe_nonneg.1 (real ▸ nonneg))).rounds

end Binary64

namespace Interval

variable {i j i' j' : Interval} {a b : Float}

/-- The bounds of an interval that is not empty belong to it. -/
theorem encloses_bound (proper : i.Proper) (some : i.isEmpty = false) (member : a ∈ [i.lo, i.hi]) :
    i.Encloses (value a) := by
  have ordered := (isEmpty_eq_false_iff proper).1 some
  simp only [List.mem_cons, List.not_mem_nil, or_false] at member
  rcases member with rfl | rfl
  · exact ⟨proper, le_rfl, ordered⟩
  · exact ⟨proper, ordered, le_rfl⟩

theorem within_entire (proper : i.Proper) : i.Within entire :=
  ⟨proper, proper_entire, by simp [entire], by simp [entire]⟩

/-! ## Products -/

theorem proper_mul (i j : Interval) : (i * j).Proper := by
  change (Interval.mul i j).Proper
  unfold Interval.mul
  split_ifs
  · exact proper_empty
  · exact proper_outward _ _

theorem rounds_corner (properI : i.Proper) (properJ : j.Proper) (memberA : a ∈ [i.lo, i.hi])
    (memberB : b ∈ [j.lo, j.hi]) : Rounds (value a * value b) (boundProduct a b) := by
  simp only [List.mem_cons, List.not_mem_nil, or_false] at memberA memberB
  refine rounds_boundProduct ?_ ?_
  · rcases memberA with rfl | rfl
    exacts [properI.lo, properI.hi]
  · rcases memberB with rfl | rfl
    exacts [properJ.lo, properJ.hi]

theorem exists_corners_mul (properI : i.Proper) (properJ : j.Proper) (someI : i.isEmpty = false)
    (someJ : j.isEmpty = false) :
    ∃ low high, IsNumber low ∧ IsNumber high ∧ i * j = { lo := previous low, hi := next high } ∧
      (low = infinity ∨ ∃ a ∈ [i.lo, i.hi], ∃ b ∈ [j.lo, j.hi], low = boundProduct a b) ∧
      (high = -infinity ∨ ∃ a ∈ [i.lo, i.hi], ∃ b ∈ [j.lo, j.hi], high = boundProduct a b) := by
  let products := [boundProduct i.lo j.lo, boundProduct i.lo j.hi, boundProduct i.hi j.lo, boundProduct i.hi j.hi]
  have made {p a b : Float} (memberA : a ∈ [i.lo, i.hi]) (memberB : b ∈ [j.lo, j.hi]) (same : p = boundProduct a b) :
      IsNumber p ∧ ∃ a ∈ [i.lo, i.hi], ∃ b ∈ [j.lo, j.hi], p = boundProduct a b :=
    ⟨same ▸ (rounds_corner properI properJ memberA memberB).isNumber, a, memberA, b, memberB, same⟩
  have corner : ∀ p ∈ products, IsNumber p ∧ ∃ a ∈ [i.lo, i.hi], ∃ b ∈ [j.lo, j.hi], p = boundProduct a b := by
    intro p listed
    simp only [products, List.mem_cons, List.not_mem_nil, or_false] at listed
    rcases listed with same | same | same | same
    · exact made (by simp) (by simp) same
    · exact made (by simp) (by simp) same
    · exact made (by simp) (by simp) same
    · exact made (by simp) (by simp) same
  have numbers : ∀ p ∈ products, IsNumber p := fun p listed => (corner p listed).1
  have low := List.mem_cons.1 (Binary64.foldl_mem Binary64.smaller_eq_or products infinity)
  have high := List.mem_cons.1 (Binary64.foldl_mem Binary64.larger_eq_or products (-infinity))
  have numberLow := (Binary64.foldl_smaller numbers Binary64.isNumber_infinity).1
  have numberHigh := (Binary64.foldl_larger numbers (Binary64.isNumber_neg.2 Binary64.isNumber_infinity)).1
  refine ⟨_, _, numberLow, numberHigh, ?_, low.imp_right fun listed => (corner _ listed).2,
    high.imp_right fun listed => (corner _ listed).2⟩
  have nanLow : (products.foldl smaller infinity).isNaN = false := numberLow
  have nanHigh : (products.foldl larger (-infinity)).isNaN = false := numberHigh
  have same : i * j = outward (products.foldl smaller infinity) (products.foldl larger (-infinity)) := by
    change Interval.mul i j = _
    simp only [Interval.mul, someI, someJ, Bool.or_false, Bool.false_eq_true, if_false, products]
  rw [same, outward, nanLow, nanHigh]
  rfl

theorem Within.mul (left : i.Within i') (right : j.Within j') : (i * j).Within (i' * j') := by
  cases none : i.isEmpty || j.isEmpty with
  | true =>
      have same : i * j = empty := if_pos none
      rw [same]
      exact within_empty (proper_mul i' j')
  | false =>
      have ⟨someI, someJ⟩ := Bool.or_eq_false_iff.1 none
      obtain ⟨low, high, numberLow, numberHigh, same, cornerLow, cornerHigh⟩ :=
        exists_corners_mul left.inner right.inner someI someJ
      obtain ⟨low', high', numberLow', numberHigh', same', bounds⟩ :=
        exists_bounds_mul left.outer right.outer (left.notEmpty someI) (right.notEmpty someJ)
      -- A corner of the inner intervals lies between two corners of the outer ones.
      have between {a b : Float} (memberA : a ∈ [i.lo, i.hi]) (memberB : b ∈ [j.lo, j.hi]) :
          value low' ≤ value (boundProduct a b) ∧ value (boundProduct a b) ≤ value high' := by
        have rounds := rounds_corner left.inner right.inner memberA memberB
        obtain ⟨⟨c, memberC, d, memberD, below⟩, e, memberE, f, memberF, above⟩ :=
          mul_between_corners (left.encloses (encloses_bound left.inner someI memberA))
            (right.encloses (encloses_bound right.inner someJ memberB))
        constructor
        · calc value low' ≤ value (boundProduct c d) := (bounds c memberC d memberD).1
            _ ≤ value (boundProduct a b) := (rounds_corner left.outer right.outer memberC memberD).mono rounds below
        · calc value (boundProduct a b) ≤ value (boundProduct e f) :=
                rounds.mono (rounds_corner left.outer right.outer memberE memberF) above
            _ ≤ value high' := (bounds e memberE f memberF).2
      have lower : value low' ≤ value low := by
        rcases cornerLow with rfl | ⟨a, memberA, b, memberB, rfl⟩
        · simp
        · exact (between memberA memberB).1
      have upper : value high ≤ value high' := by
        rcases cornerHigh with rfl | ⟨a, memberA, b, memberB, rfl⟩
        · simp
        · exact (between memberA memberB).2
      refine ⟨proper_mul i j, proper_mul i' j', ?_, ?_⟩
      · rw [same, same']
        exact Binary64.previous_mono numberLow' numberLow lower
      · rw [same, same']
        exact Binary64.next_mono numberHigh numberHigh' upper

/-! ## Quotients -/

theorem Within.containsZero (within : i.Within i') (zero : i.containsZero = true) : i'.containsZero = true := by
  simp only [Interval.containsZero, contains, Bool.and_eq_true, decide_eq_true_eq, Binary64.le_iff] at zero ⊢
  obtain ⟨⟨-, number, above⟩, -, -, below⟩ := zero
  exact ⟨⟨within.outer.lo, number, within.lower.trans above⟩, number, within.outer.hi, below.trans within.upper⟩

/-- Apart from zero, narrower intervals have narrower reciprocals. -/
theorem Within.reciprocal (within : i.Within i') (some : i.isEmpty = false) (apart : i'.containsZero = false) :
    (outward (1.0 / i.hi) (1.0 / i.lo)).Within (outward (1.0 / i'.hi) (1.0 / i'.lo)) := by
  have sign := sign_of_containsZero within.outer apart
  have rounds {a : Float} (encloses : i'.Encloses (value a)) (number : IsNumber a) :
      Rounds (value a)⁻¹ (1.0 / a) := by
    refine Binary64.rounds_reciprocal number fun zero => ?_
    have lower := zero ▸ encloses.lower
    have upper := zero ▸ encloses.upper
    exact sign.elim (fun positive => absurd lower (not_le.2 positive)) fun negative => absurd upper (not_le.2 negative)
  have bound {a : Float} (member : a ∈ [i.lo, i.hi]) := within.encloses (encloses_bound within.inner some member)
  have some' := within.notEmpty some
  have lo := rounds (bound (a := i.lo) (by simp)) within.inner.lo
  have hi := rounds (bound (a := i.hi) (by simp)) within.inner.hi
  have lo' := rounds (encloses_bound (a := i'.lo) within.outer some' (by simp)) within.outer.lo
  have hi' := rounds (encloses_bound (a := i'.hi) within.outer some' (by simp)) within.outer.hi
  have bounds {a b : Float} (low : IsNumber a) (high : IsNumber b) :
      outward a b = { lo := previous a, hi := next b } := by
    have nanLow : a.isNaN = false := low
    have nanHigh : b.isNaN = false := high
    simp only [outward, nanLow, nanHigh, Bool.false_eq_true, if_false]
  refine ⟨proper_outward _ _, proper_outward _ _, ?_, ?_⟩
  · rw [bounds hi.isNumber lo.isNumber, bounds hi'.isNumber lo'.isNumber]
    refine Binary64.previous_mono hi'.isNumber hi.isNumber (hi'.mono hi (inv_le_inv within.upper ?_))
    exact sign.imp_left fun positive => positive.trans_le (bound (a := i.hi) (by simp)).lower
  · rw [bounds hi.isNumber lo.isNumber, bounds hi'.isNumber lo'.isNumber]
    refine Binary64.next_mono lo.isNumber lo'.isNumber (lo.mono lo' (inv_le_inv within.lower ?_))
    exact sign.imp_right fun negative => (bound (a := i.lo) (by simp)).upper.trans_lt negative

theorem proper_div (i j : Interval) : (i / j).Proper := by
  change (Interval.div i j).Proper
  unfold Interval.div
  split_ifs
  · exact proper_empty
  · exact proper_entire
  · exact proper_mul _ _

theorem Within.div (left : i.Within i') (right : j.Within j') : (i / j).Within (i' / j') := by
  cases none : i.isEmpty || j.isEmpty with
  | true =>
      have same : i / j = empty := if_pos none
      rw [same]
      exact within_empty (proper_div i' j')
  | false =>
      have ⟨someI, someJ⟩ := Bool.or_eq_false_iff.1 none
      have someI' := left.notEmpty someI
      have someJ' := right.notEmpty someJ
      cases apart' : j'.containsZero with
      | true =>
          have same : i' / j' = entire := by
            change Interval.div i' j' = _
            rw [Interval.div, someI', someJ', apart']
            rfl
          rw [same]
          exact within_entire (proper_div i j)
      | false =>
          have apart : j.containsZero = false := by
            by_contra zero
            have zero' := right.containsZero (Bool.of_not_eq_false zero)
            exact absurd (zero'.symm.trans apart') (by decide)
          rw [div_eq_mul someI someJ apart, div_eq_mul someI' someJ' apart']
          exact left.mul (right.reciprocal someJ apart')

/-! ## Roots -/

theorem proper_sqrt (i : Interval) : i.sqrt.Proper := by
  unfold Interval.sqrt
  dsimp only
  split_ifs
  · exact proper_empty
  · exact proper_ofBounds _ _

/-- The bounds of the roots are next to the roots of the bounds, and not below zero. -/
theorem exists_bounds_sqrt (proper : i.Proper) (some : (i.intersect nonNegative).isEmpty = false) :
    Rounds (Binary64.root (value (i.intersect nonNegative).lo)) (i.intersect nonNegative).lo.sqrt ∧
      Rounds (Binary64.root (value (i.intersect nonNegative).hi)) (i.intersect nonNegative).hi.sqrt ∧
      0 ≤ value (i.intersect nonNegative).lo ∧
      i.sqrt = { lo := larger (previous (i.intersect nonNegative).lo.sqrt) 0.0
                 hi := next (i.intersect nonNegative).hi.sqrt } := by
  have properRoots := proper_intersect proper nonNegative
  have ordered := (isEmpty_eq_false_iff properRoots).1 some
  have nonneg : 0 ≤ value (i.intersect nonNegative).lo := by
    rw [(bounds_intersect proper proper_nonNegative some).1]
    exact le_max_of_le_right (by simp [nonNegative])
  have low := Binary64.rounds_sqrt properRoots.lo nonneg
  have high := Binary64.rounds_sqrt properRoots.hi (nonneg.trans ordered)
  refine ⟨low, high, nonneg, ?_⟩
  simp only [Interval.sqrt, some, Bool.false_eq_true, if_false]
  exact ofBounds_of_isNumber (Binary64.isNumber_larger (Binary64.isNumber_previous low.isNumber) _)
    (Binary64.isNumber_next high.isNumber)

theorem Within.sqrt (within : i.Within i') : i.sqrt.Within i'.sqrt := by
  have roots := within.intersect (.refl proper_nonNegative)
  cases none : (i.intersect nonNegative).isEmpty with
  | true =>
      have same : i.sqrt = empty := by simp only [Interval.sqrt, none, if_true]
      rw [same]
      exact within_empty (proper_sqrt i')
  | false =>
      obtain ⟨low, high, nonneg, same⟩ := exists_bounds_sqrt within.inner none
      obtain ⟨low', high', nonneg', same'⟩ := exists_bounds_sqrt within.outer (roots.notEmpty none)
      have ordered := (isEmpty_eq_false_iff roots.inner).1 none
      refine ⟨proper_sqrt i, proper_sqrt i', ?_, ?_⟩
      · rw [same, same', Binary64.value_larger (Binary64.isNumber_previous low.isNumber) Binary64.isNumber_zero,
          Binary64.value_larger (Binary64.isNumber_previous low'.isNumber) Binary64.isNumber_zero]
        exact max_le_max (Binary64.previous_mono low'.isNumber low.isNumber
          (low'.mono low (Binary64.root_mono nonneg' roots.lower))) le_rfl
      · rw [same, same']
        exact Binary64.next_mono high.isNumber high'.isNumber
          (high.mono high' (Binary64.root_mono (nonneg.trans ordered) roots.upper))

/-! ## Hulls and preimages of squares -/

theorem within_hull_left (properI : i.Proper) (properJ : j.Proper) (some : i.isEmpty = false) :
    i.Within (i.hull j) :=
  (within_iff_encloses properI some).2
    ⟨(encloses_bound (a := i.lo) properI some (by simp)).hull_left properJ,
      (encloses_bound (a := i.hi) properI some (by simp)).hull_left properJ⟩

theorem within_hull_right (properI : i.Proper) (properJ : j.Proper) (some : j.isEmpty = false) :
    j.Within (i.hull j) :=
  (within_iff_encloses properJ some).2
    ⟨(encloses_bound (a := j.lo) properJ some (by simp)).hull_right properI,
      (encloses_bound (a := j.hi) properJ some (by simp)).hull_right properI⟩

/-- Narrower intervals have a narrower hull, if the second one is the empty interval itself when it is empty. -/
theorem Within.hull (left : i.Within i') (right : j.Within j') (noneJ : j.isEmpty = true → j = empty) :
    (i.hull j).Within (i'.hull j') := by
  have proper := proper_hull left.outer right.outer
  cases emptyI : i.isEmpty with
  | true =>
      have same : i.hull j = j := if_pos emptyI
      rw [same]
      cases emptyJ : j.isEmpty with
      | true =>
          rw [noneJ emptyJ]
          exact within_empty proper
      | false => exact right.trans (within_hull_right left.outer right.outer (right.notEmpty emptyJ))
  | false =>
      have some' := left.notEmpty emptyI
      cases emptyJ : j.isEmpty with
      | true =>
          have same : i.hull j = i := by
            simp only [Interval.hull, emptyI, emptyJ, Bool.false_eq_true, if_false, if_true]
          rw [same]
          exact left.trans (within_hull_left left.outer right.outer some')
      | false =>
          obtain ⟨lower, upper⟩ := bounds_hull left.inner right.inner emptyI emptyJ
          obtain ⟨lower', upper'⟩ := bounds_hull left.outer right.outer some' (right.notEmpty emptyJ)
          refine ⟨proper_hull left.inner right.inner, proper, ?_, ?_⟩
          · rw [lower, lower']
            exact min_le_min left.lower right.lower
          · rw [upper, upper']
            exact max_le_max left.upper right.upper

theorem proper_sqrPreimage (proper : i.Proper) (j : Interval) : (i.sqrPreimage j).Proper := by
  unfold Interval.sqrPreimage
  dsimp only
  split_ifs
  · exact proper_empty
  · exact proper_hull (proper_intersect proper _) (proper_intersect proper _)

theorem Within.sqrPreimage (left : i.Within i') (right : j.Within j') :
    (i.sqrPreimage j).Within (i'.sqrPreimage j') := by
  have root := right.sqrt
  cases none : j.sqrt.isEmpty with
  | true =>
      have same : i.sqrPreimage j = empty := by simp only [Interval.sqrPreimage, none, if_true]
      rw [same]
      exact within_empty (proper_sqrPreimage left.outer j')
  | false =>
      have branches (k : Interval) {root : Interval} (some : root.isEmpty = false) (same : root = k.sqrt)
          (m : Interval) : m.sqrPreimage k = (m.intersect root).hull (m.intersect (-root)) := by
        subst same
        simp only [Interval.sqrPreimage, some, Bool.false_eq_true, if_false]
      rw [branches j none rfl, branches j' (root.notEmpty none) rfl]
      exact (left.intersect root).hull (left.intersect root.neg) intersect_eq_empty_of_isEmpty

/-! ## Squares -/

/-- Zero lies strictly between the bounds. -/
def Straddles (i : Interval) : Prop :=
  value i.lo < 0 ∧ 0 < value i.hi

/-- The interval lies on one side of zero, and the square of its bound next to zero is computed as zero. -/
def SquareVanishes (i : Interval) : Prop :=
  (0 ≤ value i.lo ∧ value (i.lo * i.lo) = 0) ∨ (value i.hi ≤ 0 ∧ value (i.hi * i.hi) = 0)

/-- The bound next to zero, of an interval on one side of zero. -/
def nearBound (i : Interval) : Float :=
  if i.lo ≥ 0.0 then i.lo else i.hi

theorem isNumber_nearBound (proper : i.Proper) : IsNumber i.nearBound := by
  unfold nearBound
  split_ifs
  exacts [proper.lo, proper.hi]

theorem lo_nonneg_iff (proper : i.Proper) : i.lo ≥ 0.0 ↔ 0 ≤ value i.lo := by
  simp only [ge_iff_le, Binary64.le_iff, Binary64.isNumber_zero, proper.lo, Binary64.value_zero, true_and]

theorem hi_nonpos_iff (proper : i.Proper) : i.hi ≤ 0.0 ↔ value i.hi ≤ 0 := by
  simp only [Binary64.le_iff, Binary64.isNumber_zero, proper.hi, Binary64.value_zero, true_and]

/-- The square next to zero of an interval on one side of zero vanishes if the computed one does. -/
theorem squareVanishes_iff (proper : i.Proper) (some : i.isEmpty = false) (side : ¬ i.Straddles) :
    i.SquareVanishes ↔ value (i.nearBound * i.nearBound) = 0 := by
  have ordered := (isEmpty_eq_false_iff proper).1 some
  unfold SquareVanishes nearBound
  by_cases nonneg : 0 ≤ value i.lo
  · rw [if_pos ((lo_nonneg_iff proper).2 nonneg)]
    refine ⟨?_, fun zero => .inl ⟨nonneg, zero⟩⟩
    rintro (⟨-, zero⟩ | ⟨nonpos, zero⟩)
    · exact zero
    · have least : value i.lo = 0 := le_antisymm (ordered.trans nonpos) nonneg
      have rounds := Binary64.rounds_mul_self proper.lo
      have rounded : Rounds (value i.lo * value i.lo) 0.0 := by
        rw [least, zero_mul]
        exact Binary64.rounds_zero
      exact (le_antisymm (rounds.mono rounded le_rfl) (rounded.mono rounds le_rfl)).trans Binary64.value_zero
  · rw [if_neg (mt (lo_nonneg_iff proper).1 nonneg)]
    have nonpos : value i.hi ≤ 0 := not_lt.1 fun positive => side ⟨not_le.1 nonneg, positive⟩
    simp [nonneg, nonpos]

theorem sqr_of_straddles (proper : i.Proper) (straddles : i.Straddles) :
    i.sqr = { lo := 0.0, hi := next (larger (i.lo * i.lo) (i.hi * i.hi)) } := by
  have some : i.isEmpty = false := (isEmpty_eq_false_iff proper).2 (straddles.1.trans straddles.2).le
  have number := Binary64.isNumber_larger (Binary64.rounds_mul_self proper.lo).isNumber (i.hi * i.hi)
  rw [Interval.sqr, some, if_neg Bool.false_ne_true, if_neg (mt (lo_nonneg_iff proper).1 (not_le.2 straddles.1)),
    if_neg (mt (hi_nonpos_iff proper).1 (not_le.2 straddles.2))]
  exact ofBounds_of_isNumber Binary64.isNumber_zero (Binary64.isNumber_next number)

/-- The squares of an interval on one side of zero start next to the square of the bound next to zero. -/
theorem sqr_lo_of_side (proper : i.Proper) (some : i.isEmpty = false) (side : ¬ i.Straddles) :
    i.sqr.lo = previous (i.nearBound * i.nearBound) := by
  have nan {x : Float} (number : IsNumber x) : (x * x).isNaN = false := (Binary64.rounds_mul_self number).isNumber
  unfold Interval.sqr nearBound
  rw [some, if_neg Bool.false_ne_true]
  by_cases nonneg : 0 ≤ value i.lo
  · rw [if_pos ((lo_nonneg_iff proper).2 nonneg), if_pos ((lo_nonneg_iff proper).2 nonneg), outward, nan proper.lo]
    rfl
  · have nonpos : value i.hi ≤ 0 := not_lt.1 fun positive => side ⟨not_le.1 nonneg, positive⟩
    rw [if_neg (mt (lo_nonneg_iff proper).1 nonneg), if_neg (mt (lo_nonneg_iff proper).1 nonneg),
      if_pos ((hi_nonpos_iff proper).2 nonpos), outward, nan proper.hi]
    rfl

/-- On either side of zero and around it, the squares end next to the larger one of the squares of the bounds. -/
theorem value_sqr_hi (proper : i.Proper) (some : i.isEmpty = false) :
    IsNumber i.sqr.hi ∧ value i.sqr.hi = value (next (larger (i.lo * i.lo) (i.hi * i.hi))) := by
  have lo := Binary64.rounds_mul_self proper.lo
  have hi := Binary64.rounds_mul_self proper.hi
  have nanLo : (i.lo * i.lo).isNaN = false := lo.isNumber
  have nanHi : (i.hi * i.hi).isNaN = false := hi.isNumber
  have number := Binary64.isNumber_larger lo.isNumber (i.hi * i.hi)
  have most := Binary64.value_larger lo.isNumber hi.isNumber
  have ordered := (isEmpty_eq_false_iff proper).1 some
  have same {x : Float} (numberX : IsNumber x) (largest : value (larger (i.lo * i.lo) (i.hi * i.hi)) = value x) :
      IsNumber (next x) ∧ value (next x) = value (next (larger (i.lo * i.lo) (i.hi * i.hi))) :=
    ⟨Binary64.isNumber_next numberX, le_antisymm (Binary64.next_mono numberX number largest.ge)
      (Binary64.next_mono number numberX largest.le)⟩
  by_cases nonneg : 0 ≤ value i.lo
  · have square : i.sqr.hi = next (i.hi * i.hi) := by
      rw [Interval.sqr, some, if_neg Bool.false_ne_true, if_pos ((lo_nonneg_iff proper).2 nonneg), outward, nanHi]
      rfl
    rw [square]
    exact same hi.isNumber (most.trans (max_eq_right (lo.mono hi (mul_self_le_of_nonneg nonneg ordered))))
  · by_cases nonpos : value i.hi ≤ 0
    · have square : i.sqr.hi = next (i.lo * i.lo) := by
        rw [Interval.sqr, some, if_neg Bool.false_ne_true, if_neg (mt (lo_nonneg_iff proper).1 nonneg),
          if_pos ((hi_nonpos_iff proper).2 nonpos), outward, nanLo]
        rfl
      rw [square]
      exact same lo.isNumber (most.trans (max_eq_left (hi.mono lo (mul_self_le_of_nonpos nonpos ordered))))
    · rw [sqr_of_straddles proper ⟨not_le.1 nonneg, not_le.1 nonpos⟩]
      exact ⟨Binary64.isNumber_next number, rfl⟩

theorem proper_sqr (i : Interval) : i.sqr.Proper := by
  unfold Interval.sqr
  split_ifs
  · exact proper_empty
  · exact proper_outward _ _
  · exact proper_outward _ _
  · exact proper_ofBounds _ _

theorem Within.straddles (within : i.Within i') (straddles : i.Straddles) : i'.Straddles :=
  ⟨within.lower.trans_lt straddles.1, straddles.2.trans_le within.upper⟩

/-- The largest squares of narrower intervals are no larger. -/
theorem Within.sqr_hi (within : i.Within i') (some : i.isEmpty = false) : value i.sqr.hi ≤ value i'.sqr.hi := by
  have lo := Binary64.rounds_mul_self within.inner.lo
  have hi := Binary64.rounds_mul_self within.inner.hi
  have lo' := Binary64.rounds_mul_self within.outer.lo
  have hi' := Binary64.rounds_mul_self within.outer.hi
  have ordered := (isEmpty_eq_false_iff within.inner).1 some
  have bounded {x : Float} (number : IsNumber x) (inside : i'.Encloses (value x)) :
      value (x * x) ≤ max (value (i'.lo * i'.lo)) (value (i'.hi * i'.hi)) := by
    have square := Binary64.rounds_mul_self number
    rcases le_total 0 (value x) with sign | sign
    · exact le_max_of_le_right (square.mono hi' (mul_self_le_of_nonneg sign inside.upper))
    · exact le_max_of_le_left (square.mono lo' (mul_self_le_of_nonpos sign inside.lower))
  rw [(value_sqr_hi within.inner some).2, (value_sqr_hi within.outer (within.notEmpty some)).2]
  refine Binary64.next_mono (Binary64.isNumber_larger lo.isNumber _) (Binary64.isNumber_larger lo'.isNumber _) ?_
  rw [Binary64.value_larger lo.isNumber hi.isNumber, Binary64.value_larger lo'.isNumber hi'.isNumber]
  exact max_le (bounded within.inner.lo (within.encloses (encloses_bound within.inner some (by simp))))
    (bounded within.inner.hi (within.encloses (encloses_bound within.inner some (by simp))))

/-- On one side of zero, the smallest squares of narrower intervals are no smaller. -/
theorem Within.sqr_lo_of_side (within : i.Within i') (some : i.isEmpty = false) (side : ¬ i'.Straddles) :
    value i'.sqr.lo ≤ value i.sqr.lo := by
  have ordered := (isEmpty_eq_false_iff within.inner).1 some
  have near := Binary64.rounds_mul_self (isNumber_nearBound within.inner)
  have near' := Binary64.rounds_mul_self (isNumber_nearBound within.outer)
  rw [Interval.sqr_lo_of_side within.inner some (mt within.straddles side),
    Interval.sqr_lo_of_side within.outer (within.notEmpty some) side]
  refine Binary64.previous_mono near'.isNumber near.isNumber (near'.mono near ?_)
  unfold nearBound
  by_cases nonneg' : 0 ≤ value i'.lo
  · rw [if_pos ((lo_nonneg_iff within.outer).2 nonneg'),
      if_pos ((lo_nonneg_iff within.inner).2 (nonneg'.trans within.lower))]
    exact mul_self_le_of_nonneg nonneg' within.lower
  · have nonpos' : value i'.hi ≤ 0 := not_lt.1 fun positive => side ⟨not_le.1 nonneg', positive⟩
    rw [if_neg (mt (lo_nonneg_iff within.outer).1 nonneg')]
    split_ifs
    · exact mul_self_le_of_nonpos nonpos' (ordered.trans within.upper)
    · exact mul_self_le_of_nonpos nonpos' within.upper

/-- The squares of an interval on one side of zero start from zero up, unless the square next to zero vanishes. Then
    they start at the number below zero. -/
theorem sqr_lo_nonneg_iff (proper : i.Proper) (some : i.isEmpty = false) (side : ¬ i.Straddles) :
    (0 ≤ value i.sqr.lo ↔ ¬ i.SquareVanishes) ∧
      (i.SquareVanishes → value i.sqr.lo = value (previous 0.0)) := by
  have near := Binary64.rounds_mul_self (isNumber_nearBound proper)
  have least : 0 ≤ value (i.nearBound * i.nearBound) := by
    have square : (0 : EReal) ≤ value i.nearBound * value i.nearBound :=
      (le_total 0 (value i.nearBound)).elim (fun sign => EReal.mul_nonneg sign sign)
        fun sign => EReal.mul_nonneg_iff.2 (.inr ⟨sign, sign⟩)
    exact near.nonneg square
  rw [squareVanishes_iff proper some side, sqr_lo_of_side proper some side]
  refine ⟨⟨fun nonneg zero => ?_, fun nonzero => ?_⟩, fun zero => ?_⟩
  · have below := Binary64.value_previous_lt near.isNumber (by simp [zero])
    rw [zero] at below
    exact absurd nonneg (not_le.2 below)
  · have positive : value 0.0 < value (i.nearBound * i.nearBound) := Binary64.value_zero ▸ lt_of_le_of_ne least
      (Ne.symm nonzero)
    exact Binary64.value_zero ▸ Binary64.le_previous near.isNumber Binary64.isNumber_zero positive
  · exact Binary64.value_previous_congr near.isNumber Binary64.isNumber_zero (zero.trans Binary64.value_zero.symm)

/-- Narrower intervals have narrower squares, unless the wider one has zero strictly inside and the square next to
    zero of the other one vanishes. -/
theorem Within.sqr_iff (within : i.Within i') (some : i.isEmpty = false) :
    i.sqr.Within i'.sqr ↔ ¬ (i'.Straddles ∧ i.SquareVanishes) := by
  have bounds : i.sqr.Within i'.sqr ↔ value i'.sqr.lo ≤ value i.sqr.lo :=
    ⟨fun squares => squares.lower, fun lower => ⟨proper_sqr i, proper_sqr i', lower, within.sqr_hi some⟩⟩
  rw [bounds]
  by_cases straddles' : i'.Straddles
  · simp only [straddles', true_and]
    rw [sqr_of_straddles within.outer straddles', Binary64.value_zero]
    by_cases straddles : i.Straddles
    · rw [sqr_of_straddles within.inner straddles, Binary64.value_zero]
      refine iff_of_true le_rfl ?_
      rintro (⟨nonneg, -⟩ | ⟨nonpos, -⟩)
      · exact absurd straddles.1 (not_lt.2 nonneg)
      · exact absurd straddles.2 (not_lt.2 nonpos)
    · exact (sqr_lo_nonneg_iff within.inner some straddles).1
  · exact iff_of_true (within.sqr_lo_of_side some straddles') fun both => straddles' both.1

/-! ## All operations -/

/-- What the operations make of intervals lies within what they make of wider ones. The squares reach at most one
    number below zero where those of the wider interval start at zero, and they do so exactly if the wider interval has
    zero strictly inside and the square next to zero of the other one vanishes. -/
theorem operations_isotone (left : i.Within i') (right : j.Within j') (someI : i.isEmpty = false)
    (someJ : j.isEmpty = false) :
    (i + j).Within (i' + j') ∧ (i - j).Within (i' - j') ∧ (i * j).Within (i' * j') ∧ (i / j).Within (i' / j') ∧
      (-i).Within (-i') ∧ i.sqrt.Within i'.sqrt ∧ (i.intersect j).Within (i'.intersect j') ∧
      (i.hull j).Within (i'.hull j') ∧ (i.sqrPreimage j).Within (i'.sqrPreimage j') ∧
      (i.sqr.Within i'.sqr ↔ ¬ (i'.Straddles ∧ i.SquareVanishes)) ∧
      (i'.Straddles ∧ i.SquareVanishes → value i'.sqr.lo = 0 ∧ value i.sqr.lo = value (previous 0.0) ∧
        value i.sqr.hi ≤ value i'.sqr.hi) := by
  have hull : (i.hull j).Within (i'.hull j') := left.hull right fun none => absurd none (by simp [someJ])
  refine ⟨left.add right, left.sub right, left.mul right, left.div right, left.neg, left.sqrt, left.intersect right,
    hull, left.sqrPreimage right, left.sqr_iff someI, fun ⟨straddles', vanishes⟩ => ?_⟩
  have side : ¬ i.Straddles := by
    rintro ⟨negative, positive⟩
    rcases vanishes with ⟨nonneg, -⟩ | ⟨nonpos, -⟩
    · exact absurd negative (not_lt.2 nonneg)
    · exact absurd positive (not_lt.2 nonpos)
  refine ⟨?_, (sqr_lo_nonneg_iff left.inner someI side).2 vanishes, left.sqr_hi someI⟩
  rw [sqr_of_straddles left.outer straddles', Binary64.value_zero]

/-- An interval lies within another one if the computed order of the bounds says so. -/
theorem within_of_le {lo hi lo' hi' : Float} (lower : lo' ≤ lo) (upper : hi ≤ hi') :
    (ofBounds lo hi).Within (ofBounds lo' hi') := by
  obtain ⟨numberLo', numberLo, below⟩ := Binary64.le_iff.1 lower
  obtain ⟨numberHi, numberHi', above⟩ := Binary64.le_iff.1 upper
  rw [ofBounds_of_isNumber numberLo numberHi, ofBounds_of_isNumber numberLo' numberHi']
  exact ⟨⟨numberLo, numberHi⟩, ⟨numberLo', numberHi'⟩, below, above⟩

/-- Numbers between one and two squared, beside those between minus one and four squared, where zero lies strictly
    between the bounds but the square of one does not vanish. -/
theorem operations_isotone_around_zero :
    let i := ofBounds 1.0 2.0
    let j := ofBounds 2.0 3.0
    let i' := ofBounds (-1.0) 4.0
    let j' := ofBounds 2.0 infinity
    i.Within i' ∧ j.Within j' ∧ i.isEmpty = false ∧ j.isEmpty = false ∧ (i / j).Within (i' / j') ∧
      i'.Straddles ∧ i.sqr.Within i'.sqr := by
  intro i j i' j'
  have left : i.Within i' := within_of_le (by decide +kernel) (by decide +kernel)
  have right : j.Within j' := within_of_le (by decide +kernel) (by decide +kernel)
  have someI : i.isEmpty = false := by decide +kernel
  have someJ : j.isEmpty = false := by decide +kernel
  obtain ⟨-, -, -, quotients, -, -, -, -, -, squares, -⟩ := operations_isotone left right someI someJ
  have positive : value 0.0 < value i.lo := (Binary64.lt_iff.1 (by decide +kernel)).2.2
  have square : value 0.0 < value (i.lo * i.lo) := (Binary64.lt_iff.1 (by decide +kernel)).2.2
  have negative : value i'.lo < value 0.0 := (Binary64.lt_iff.1 (by decide +kernel)).2.2
  have above : value 0.0 < value i'.hi := (Binary64.lt_iff.1 (by decide +kernel)).2.2
  rw [Binary64.value_zero] at positive square negative above
  refine ⟨left, right, someI, someJ, quotients, ⟨negative, above⟩, squares.2 ?_⟩
  rintro ⟨-, ⟨-, zero⟩ | ⟨nonpos, -⟩⟩
  · exact square.ne' zero
  · exact absurd (positive.trans_le ((isEmpty_eq_false_iff left.inner).1 someI)) (not_lt.2 nonpos)

/-- The squares of the numbers from zero to one reach below zero, those of the numbers from minus one to one do not. -/
theorem sqr_of_unit_not_within :
    let unit := ofBounds 0.0 1.0
    let around := ofBounds (-1.0) 1.0
    unit.Within around ∧ unit.isEmpty = false ∧ unit.sqr.contains (previous 0.0) = true ∧
      around.sqr.contains (previous 0.0) = false ∧ ¬ unit.sqr.Within around.sqr := by
  intro unit around
  have within : unit.Within around := within_of_le (by decide +kernel) (by decide +kernel)
  have some : unit.isEmpty = false := by decide +kernel
  have negative : value around.lo < value 0.0 := (Binary64.lt_iff.1 (by decide +kernel)).2.2
  have positive : value 0.0 < value around.hi := (Binary64.lt_iff.1 (by decide +kernel)).2.2
  have least : unit.lo = 0.0 := by decide +kernel
  have square : unit.lo * unit.lo = 0.0 := by decide +kernel
  rw [Binary64.value_zero] at negative positive
  refine ⟨within, some, by decide +kernel, by decide +kernel, fun squares => ?_⟩
  exact (within.sqr_iff some).1 squares ⟨⟨negative, positive⟩, .inl ⟨by simp [least], by simp [square]⟩⟩

end Interval

end StatBounds
