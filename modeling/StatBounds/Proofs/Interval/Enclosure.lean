import StatBounds.Interval.Arithmetic
import StatBounds.Proofs.Binary64.Integers
import StatBounds.Proofs.Binary64.Neighbours

/-! # What intervals enclose

An interval with two numbers as bounds encloses the extended reals between their values. The operations
on intervals are sound for this reading: whatever real numbers the arguments enclose, the result of an
operation encloses the exact result on the reals.
-/

namespace StatBounds

open Binary64 (IsNumber value infinity larger smaller next previous IsRounding)

namespace Binary64

/-! ## The larger and the smaller of two numbers -/

theorem larger_eq_or (x y : Float) : larger x y = x ∨ larger x y = y := by
  unfold larger
  split_ifs <;> simp

theorem smaller_eq_or (x y : Float) : smaller x y = x ∨ smaller x y = y := by
  unfold smaller
  split_ifs <;> simp

theorem isNumber_larger {x : Float} (numberX : IsNumber x) (y : Float) : IsNumber (larger x y) := by
  have nan : x.isNaN = false := numberX
  simp only [larger, nan, Bool.false_or, decide_eq_true_eq]
  split_ifs with less
  · exact (lt_iff.1 less).2.1
  · exact numberX

theorem value_larger {x y : Float} (numberX : IsNumber x) (numberY : IsNumber y) :
    value (larger x y) = max (value x) (value y) := by
  have nan : x.isNaN = false := numberX
  simp only [larger, nan, Bool.false_or, decide_eq_true_eq]
  split_ifs with less
  · exact (max_eq_right (lt_iff.1 less).2.2.le).symm
  · exact (max_eq_left ((not_lt_iff numberX numberY).1 less)).symm

/-- A NaN beside a number does not count. -/
theorem le_value_larger {x : Float} (numberX : IsNumber x) (y : Float) : value x ≤ value (larger x y) := by
  have nan : x.isNaN = false := numberX
  simp only [larger, nan, Bool.false_or, decide_eq_true_eq]
  split_ifs with less
  · exact (lt_iff.1 less).2.2.le
  · exact le_rfl

theorem isNumber_smaller {x : Float} (numberX : IsNumber x) (y : Float) : IsNumber (smaller x y) := by
  have nan : x.isNaN = false := numberX
  simp only [smaller, nan, Bool.false_or, decide_eq_true_eq]
  split_ifs with less
  · exact (lt_iff.1 less).1
  · exact numberX

theorem value_smaller {x y : Float} (numberX : IsNumber x) (numberY : IsNumber y) :
    value (smaller x y) = min (value x) (value y) := by
  have nan : x.isNaN = false := numberX
  simp only [smaller, nan, Bool.false_or, decide_eq_true_eq]
  split_ifs with less
  · exact (min_eq_right (lt_iff.1 less).2.2.le).symm
  · exact (min_eq_left ((not_lt_iff numberY numberX).1 less)).symm

theorem value_smaller_le {x : Float} (numberX : IsNumber x) (y : Float) : value (smaller x y) ≤ value x := by
  have nan : x.isNaN = false := numberX
  simp only [smaller, nan, Bool.false_or, decide_eq_true_eq]
  split_ifs with less
  · exact (lt_iff.1 less).2.2.le
  · exact le_rfl

end Binary64

namespace Interval

/-- Neither bound is NaN. -/
structure Proper (i : Interval) : Prop where
  lo : IsNumber i.lo
  hi : IsNumber i.hi

/-- An extended real lies between the bounds, which are numbers. -/
structure Encloses (i : Interval) (x : EReal) : Prop where
  proper : i.Proper
  lower : value i.lo ≤ x
  upper : x ≤ value i.hi

theorem isEmpty_iff {i : Interval} (proper : i.Proper) :
    i.isEmpty = true ↔ value i.hi < value i.lo := by
  simp only [isEmpty, gt_iff_lt, decide_eq_true_eq, Binary64.lt_iff, proper.lo, proper.hi, true_and]

theorem isEmpty_eq_false_iff {i : Interval} (proper : i.Proper) :
    i.isEmpty = false ↔ value i.lo ≤ value i.hi := by
  rw [← Bool.not_eq_true, isEmpty_iff proper, not_lt]

theorem Encloses.notEmpty {i : Interval} {x : EReal} (encloses : i.Encloses x) : i.isEmpty = false :=
  (isEmpty_eq_false_iff encloses.proper).2 (encloses.lower.trans encloses.upper)

theorem proper_empty : empty.Proper := ⟨by rfl, by rfl⟩

theorem not_encloses_empty (x : EReal) : ¬ empty.Encloses x := by
  intro encloses
  have lower := encloses.lower
  have upper := encloses.upper
  simp only [empty, Binary64.value_infinity, Binary64.value_neg, top_le_iff, EReal.neg_top] at lower upper
  subst lower
  exact absurd upper (by simp)

theorem proper_ofBounds (lo hi : Float) : (ofBounds lo hi).Proper := by
  unfold ofBounds
  constructor
  · dsimp only
    split_ifs with nan
    · simp
    · simpa [IsNumber] using nan
  · dsimp only
    split_ifs with nan
    · simp
    · simpa [IsNumber] using nan

/-- A bound that is NaN does not bound anything. -/
theorem encloses_ofBounds {lo hi : Float} {x : EReal} (lower : IsNumber lo → value lo ≤ x)
    (upper : IsNumber hi → x ≤ value hi) : (ofBounds lo hi).Encloses x where
  proper := proper_ofBounds lo hi
  lower := by
    simp only [ofBounds]
    split_ifs with nan
    · simp
    · exact lower (Bool.eq_false_iff.2 nan)
  upper := by
    simp only [ofBounds]
    split_ifs with nan
    · simp
    · exact upper (Bool.eq_false_iff.2 nan)

theorem ofBounds_of_isNumber {lo hi : Float} (numberLo : IsNumber lo) (numberHi : IsNumber hi) :
    ofBounds lo hi = { lo, hi } := by
  have nanLo : lo.isNaN = false := numberLo
  have nanHi : hi.isNaN = false := numberHi
  simp only [ofBounds, nanLo, nanHi, Bool.false_eq_true, if_false]

/-! ## Intersections and hulls -/

/-- A bound that is no number does not narrow. -/
theorem proper_intersect {i : Interval} (proper : i.Proper) (j : Interval) : (i.intersect j).Proper := by
  unfold intersect
  dsimp only
  split_ifs
  · exact proper_empty
  · exact proper_empty
  · exact ⟨Binary64.isNumber_larger proper.lo _, Binary64.isNumber_smaller proper.hi _⟩

/-- An intersection encloses what both intervals enclose. -/
theorem encloses_intersect_iff {i j : Interval} (properI : i.Proper) (properJ : j.Proper) {x : EReal} :
    (i.intersect j).Encloses x ↔ i.Encloses x ∧ j.Encloses x := by
  let meet : Interval := { lo := larger i.lo j.lo, hi := smaller i.hi j.hi }
  have proper : meet.Proper :=
    ⟨Binary64.isNumber_larger properI.lo _, Binary64.isNumber_smaller properI.hi _⟩
  have both : meet.Encloses x ↔ i.Encloses x ∧ j.Encloses x := by
    have lower := Binary64.value_larger properI.lo properJ.lo
    have upper := Binary64.value_smaller properI.hi properJ.hi
    constructor
    · intro encloses
      have low := encloses.lower
      have high := encloses.upper
      rw [lower, max_le_iff] at low
      rw [upper, le_min_iff] at high
      exact ⟨⟨properI, low.1, high.1⟩, ⟨properJ, low.2, high.2⟩⟩
    · rintro ⟨inI, inJ⟩
      refine ⟨proper, ?_, ?_⟩
      · rw [lower]
        exact max_le inI.lower inJ.lower
      · rw [upper]
        exact le_min inI.upper inJ.upper
  unfold intersect
  dsimp only
  split_ifs with given made
  · refine iff_of_false (not_encloses_empty x) ?_
    rintro ⟨inI, inJ⟩
    rw [inI.notEmpty, inJ.notEmpty] at given
    exact absurd given (by decide)
  · refine iff_of_false (not_encloses_empty x) fun encloses => ?_
    have := (both.2 encloses).notEmpty
    exact absurd (made.symm.trans this) (by decide)
  · exact both

theorem Encloses.intersect {i j : Interval} {x : EReal} (inI : i.Encloses x) (inJ : j.Encloses x) :
    (i.intersect j).Encloses x :=
  (encloses_intersect_iff inI.proper inJ.proper).2 ⟨inI, inJ⟩

theorem proper_hull {i j : Interval} (properI : i.Proper) (properJ : j.Proper) : (i.hull j).Proper := by
  unfold hull
  split_ifs
  · exact properJ
  · exact properI
  · exact ⟨Binary64.isNumber_smaller properI.lo _, Binary64.isNumber_larger properI.hi _⟩

/-- A hull of two intervals that are not empty reaches from the lower of the lower bounds to the higher
    of the higher ones. -/
theorem bounds_hull {i j : Interval} (properI : i.Proper) (properJ : j.Proper)
    (someI : i.isEmpty = false) (someJ : j.isEmpty = false) :
    value (i.hull j).lo = min (value i.lo) (value j.lo) ∧
      value (i.hull j).hi = max (value i.hi) (value j.hi) := by
  simp only [hull, someI, someJ, Bool.false_eq_true, if_false]
  exact ⟨Binary64.value_smaller properI.lo properJ.lo, Binary64.value_larger properI.hi properJ.hi⟩

/-- An intersection without numbers is the empty interval. -/
theorem intersect_eq_empty {i j : Interval} (none : (i.intersect j).isEmpty = true) : i.intersect j = empty := by
  unfold intersect at none ⊢
  dsimp only at none ⊢
  split_ifs with empties apart
  · rfl
  · rfl
  · rw [if_neg empties, if_neg apart] at none
    exact absurd none apart

/-- The interval has numbers, and it begins at the given one or before. -/
def BeginsBy (i : Interval) (x : EReal) : Prop :=
  i.isEmpty = false ∧ value i.lo ≤ x

/-- The interval has numbers, and it ends at the given one or after. -/
def EndsFrom (i : Interval) (x : EReal) : Prop :=
  i.isEmpty = false ∧ x ≤ value i.hi

theorem encloses_iff_begins_ends {i : Interval} (proper : i.Proper) {x : EReal} :
    i.Encloses x ↔ i.BeginsBy x ∧ i.EndsFrom x :=
  ⟨fun encloses => ⟨⟨encloses.notEmpty, encloses.lower⟩, encloses.notEmpty, encloses.upper⟩,
    fun ⟨begins, ends⟩ => ⟨proper, begins.2, ends.2⟩⟩

/-- A hull begins with the first of two intervals to begin, and ends with the last one to end. -/
theorem begins_ends_hull {i j : Interval} (properI : i.Proper) (properJ : j.Proper) (x : EReal) :
    ((i.hull j).BeginsBy x ↔ i.BeginsBy x ∨ j.BeginsBy x) ∧ ((i.hull j).EndsFrom x ↔ i.EndsFrom x ∨ j.EndsFrom x) := by
  cases emptyI : i.isEmpty with
  | true =>
      rw [hull, if_pos emptyI]
      simp [BeginsBy, EndsFrom, emptyI]
  | false =>
      cases emptyJ : j.isEmpty with
      | true =>
          rw [hull, emptyI, emptyJ]
          simp [BeginsBy, EndsFrom, emptyI, emptyJ]
      | false =>
          obtain ⟨lower, upper⟩ := bounds_hull properI properJ emptyI emptyJ
          have some : (i.hull j).isEmpty = false := by
            rw [isEmpty_eq_false_iff properI] at emptyI
            rw [isEmpty_eq_false_iff (proper_hull properI properJ), lower, upper]
            exact (min_le_left _ _).trans (emptyI.trans (le_max_left _ _))
          simp [BeginsBy, EndsFrom, emptyI, emptyJ, some, lower, upper]

/-! ## Sums and differences -/

theorem encloses_point (x : Float) : (point x).Encloses (value x) :=
  encloses_ofBounds (fun _ => le_rfl) (fun _ => le_rfl)

/-- A point encloses its value only. -/
theorem encloses_point_iff {x : Float} (number : IsNumber x) {r s : ℝ} (same : value x = s) :
    (point x).Encloses (r : EReal) ↔ r = s := by
  constructor
  · intro encloses
    rw [point, ofBounds_of_isNumber number number] at encloses
    have lower := encloses.lower
    have upper := encloses.upper
    rw [same, EReal.coe_le_coe_iff] at lower upper
    exact le_antisymm upper lower
  · rintro rfl
    exact same ▸ encloses_point x

theorem encloses_zero : (point 0.0).Encloses ((0 : ℝ) : EReal) := by
  have encloses := encloses_point 0.0
  rwa [Binary64.value_zero] at encloses

theorem Encloses.neg {i : Interval} {r : ℝ} (encloses : i.Encloses r) :
    (-i).Encloses ((-r : ℝ) : EReal) := by
  change (Interval.neg i).Encloses _
  rw [Interval.neg, encloses.notEmpty, if_neg Bool.false_ne_true, EReal.coe_neg]
  exact
    { proper := ⟨Binary64.isNumber_neg.2 encloses.proper.hi, Binary64.isNumber_neg.2 encloses.proper.lo⟩
      lower := by
        rw [Binary64.value_neg, EReal.neg_le_neg_iff]
        exact encloses.upper
      upper := by
        rw [Binary64.value_neg, EReal.neg_le_neg_iff]
        exact encloses.lower }

/-- The number before a sum of lower bounds is a lower bound of the sum. -/
private theorem previous_add_le {x y : Float} (numberX : IsNumber x) (numberY : IsNumber y) {r s : ℝ}
    (lowerX : value x ≤ r) (lowerY : value y ≤ s) :
    IsNumber (x + y) ∧ value (previous (x + y)) ≤ ((r + s : ℝ) : EReal) := by
  have belowX : value x ≠ ⊤ := (lt_of_le_of_lt lowerX (EReal.coe_lt_top r)).ne
  have belowY : value y ≠ ⊤ := (lt_of_le_of_lt lowerY (EReal.coe_lt_top s)).ne
  by_cases infinite : value x = ⊥ ∨ value y = ⊥
  · obtain ⟨number, bottom⟩ := Binary64.value_add_bot numberX numberY belowX belowY infinite
    exact ⟨number, (Binary64.value_previous_le number).trans (bottom ▸ bot_le)⟩
  · rw [not_or] at infinite
    lift value x to ℝ using ⟨belowX, infinite.1⟩ with a valueX
    lift value y to ℝ using ⟨belowY, infinite.2⟩ with b valueY
    have rounding := Binary64.isRounding_add numberX numberY valueX.symm valueY.symm
    refine ⟨rounding.isNumber, rounding.previous_le.trans (EReal.coe_le_coe_iff.2 ?_)⟩
    exact add_le_add (EReal.coe_le_coe_iff.1 lowerX) (EReal.coe_le_coe_iff.1 lowerY)

/-- The number after a sum of upper bounds is an upper bound of the sum. -/
private theorem le_next_add {x y : Float} (numberX : IsNumber x) (numberY : IsNumber y) {r s : ℝ}
    (upperX : r ≤ value x) (upperY : s ≤ value y) :
    IsNumber (x + y) ∧ ((r + s : ℝ) : EReal) ≤ value (next (x + y)) := by
  have aboveX : value x ≠ ⊥ := (lt_of_lt_of_le (EReal.bot_lt_coe r) upperX).ne'
  have aboveY : value y ≠ ⊥ := (lt_of_lt_of_le (EReal.bot_lt_coe s) upperY).ne'
  by_cases infinite : value x = ⊤ ∨ value y = ⊤
  · obtain ⟨number, top⟩ := Binary64.value_add_top numberX numberY aboveX aboveY infinite
    exact ⟨number, le_trans (top ▸ le_top) (Binary64.value_le_next number)⟩
  · rw [not_or] at infinite
    lift value x to ℝ using ⟨infinite.1, aboveX⟩ with a valueX
    lift value y to ℝ using ⟨infinite.2, aboveY⟩ with b valueY
    have rounding := Binary64.isRounding_add numberX numberY valueX.symm valueY.symm
    refine ⟨rounding.isNumber, le_trans (EReal.coe_le_coe_iff.2 ?_) rounding.le_next⟩
    exact add_le_add (EReal.coe_le_coe_iff.1 upperX) (EReal.coe_le_coe_iff.1 upperY)

theorem Encloses.add {i j : Interval} {r s : ℝ} (inI : i.Encloses r) (inJ : j.Encloses s) :
    (i + j).Encloses ((r + s : ℝ) : EReal) := by
  obtain ⟨numberLo, lower⟩ := previous_add_le inI.proper.lo inJ.proper.lo inI.lower inJ.lower
  obtain ⟨numberHi, upper⟩ := le_next_add inI.proper.hi inJ.proper.hi inI.upper inJ.upper
  have nanLo : (i.lo + j.lo).isNaN = false := numberLo
  have nanHi : (i.hi + j.hi).isNaN = false := numberHi
  change (Interval.add i j).Encloses _
  simp only [Interval.add, inI.notEmpty, inJ.notEmpty, Bool.or_false, Bool.false_eq_true, if_false,
    outward, nanLo, nanHi]
  exact ⟨⟨Binary64.isNumber_previous numberLo, Binary64.isNumber_next numberHi⟩, lower, upper⟩

theorem Encloses.sub {i j : Interval} {r s : ℝ} (inI : i.Encloses r) (inJ : j.Encloses s) :
    (i - j).Encloses ((r - s : ℝ) : EReal) := by
  rw [sub_eq_add_neg]
  exact inI.add inJ.neg

/-! ## Sums of many intervals -/

abbrev EnclosesAll (parts : List Interval) (reals : List ℝ) : Prop :=
  List.Forall₂ (fun part (r : ℝ) => part.Encloses r) parts reals

private theorem encloses_foldl {parts : List Interval} {reals : List ℝ} (all : EnclosesAll parts reals)
    {acc : Interval} {a : ℝ} (start : acc.Encloses a) :
    (parts.foldl (· + ·) acc).Encloses ((a + reals.sum : ℝ) : EReal) := by
  induction all generalizing acc a with
  | nil => simpa using start
  | @cons part r parts reals head tail ih =>
      have rest := ih (start.add head)
      rwa [List.sum_cons, ← add_assoc]

theorem encloses_sum {parts : List Interval} {reals : List ℝ} (all : EnclosesAll parts reals) :
    (sum parts).Encloses ((reals.sum : ℝ) : EReal) := by
  have total := encloses_foldl all encloses_zero
  rwa [zero_add] at total

def sumFromRight (parts : List Interval) : Interval :=
  (parts.foldr (fun part (state : List Interval × Interval) => (state.2 :: state.1, state.2 + part))
    ([], point 0.0)).2

theorem sumsAfter_cons (part : Interval) (parts : List Interval) :
    sumsAfter (part :: parts) = sumFromRight parts :: sumsAfter parts := rfl

private theorem encloses_sumFromRight {parts : List Interval} {reals : List ℝ}
    (all : EnclosesAll parts reals) : (sumFromRight parts).Encloses ((reals.sum : ℝ) : EReal) := by
  induction all with
  | nil => exact encloses_zero
  | @cons part r parts reals head tail ih =>
      rw [List.sum_cons, add_comm]
      exact ih.add head

private theorem encloses_zipWith {parts : List Interval} {reals : List ℝ}
    (all : EnclosesAll parts reals) {acc : Interval} {a : ℝ} (start : acc.Encloses a) :
    List.Forall₂ (fun others (r : ℝ) => others.Encloses ((a + reals.sum - r : ℝ) : EReal))
      (List.zipWith (· + ·) (sumsBefore acc parts) (sumsAfter parts)) reals := by
  induction all generalizing acc a with
  | nil => exact .nil
  | @cons part r parts reals head tail ih =>
      rw [sumsAfter_cons, sumsBefore, List.zipWith_cons_cons, List.sum_cons]
      refine .cons ?_ ?_
      · have others := start.add (encloses_sumFromRight tail)
        rwa [show a + (r + reals.sum) - r = a + reals.sum by ring]
      · rw [← add_assoc]
        exact ih (start.add head)

theorem encloses_sumsOfOthers {parts : List Interval} {reals : List ℝ}
    (all : EnclosesAll parts reals) :
    List.Forall₂ (fun others (r : ℝ) => others.Encloses ((reals.sum - r : ℝ) : EReal))
      (sumsOfOthers parts) reals := by
  have others := encloses_zipWith all encloses_zero
  rwa [zero_add] at others

end Interval

end StatBounds
