import StatBounds.Proofs.Binary64.Extended
import StatBounds.Proofs.Interval.Enclosure

/-! # Wider intervals

An interval lies within another one if its bounds lie between the bounds of the other. Rounding keeps the
order of numbers, so the operations on intervals keep this order too: whatever is computed from wider intervals
is at least as wide.
-/

namespace StatBounds.Interval

open Binary64 (IsNumber value infinity next previous Rounds)

/-- The bounds of an interval lie between those of another one, and all of them are numbers. -/
structure Within (i j : Interval) : Prop where
  inner : i.Proper
  outer : j.Proper
  lower : value j.lo ≤ value i.lo
  upper : value i.hi ≤ value j.hi

variable {i j k i' j' : Interval}

theorem Within.refl (proper : i.Proper) : i.Within i :=
  ⟨proper, proper, le_rfl, le_rfl⟩

theorem Within.trans (first : i.Within j) (second : j.Within k) : i.Within k :=
  ⟨first.inner, second.outer, second.lower.trans first.lower, first.upper.trans second.upper⟩

theorem Within.encloses (within : i.Within j) {x : EReal} (encloses : i.Encloses x) : j.Encloses x :=
  ⟨within.outer, within.lower.trans encloses.lower, encloses.upper.trans within.upper⟩

theorem Within.notEmpty (within : i.Within j) (some : i.isEmpty = false) : j.isEmpty = false := by
  rw [isEmpty_eq_false_iff within.inner] at some
  exact (isEmpty_eq_false_iff within.outer).2 ((within.lower.trans some).trans within.upper)

/-- The empty interval lies within every other one. -/
theorem within_empty (proper : j.Proper) : empty.Within j where
  inner := proper_empty
  outer := proper
  lower := by simp [empty]
  upper := by simp [empty]

theorem proper_entire : entire.Proper := ⟨by rfl, by rfl⟩

/-- An interval with numbers between its bounds lies within every other one that encloses the bounds. -/
theorem within_iff_encloses (proper : i.Proper) (some : i.isEmpty = false) :
    i.Within j ↔ j.Encloses (value i.lo) ∧ j.Encloses (value i.hi) := by
  rw [isEmpty_eq_false_iff proper] at some
  constructor
  · exact fun within => ⟨within.encloses ⟨proper, le_rfl, some⟩, within.encloses ⟨proper, some, le_rfl⟩⟩
  · exact fun ⟨low, high⟩ => ⟨proper, low.proper, low.lower, high.upper⟩

theorem within_ofBounds {lo lo' hi hi' : Int} (lower : lo' ≤ lo) (upper : hi ≤ hi') :
    (ofBounds (Binary64.ofInt lo) (Binary64.ofInt hi)).Within
      (ofBounds (Binary64.ofInt lo') (Binary64.ofInt hi')) := by
  have number := Binary64.isNumber_ofInt
  rw [ofBounds_of_isNumber (number lo) (number hi), ofBounds_of_isNumber (number lo') (number hi')]
  exact ⟨⟨number lo, number hi⟩, ⟨number lo', number hi'⟩, Binary64.value_ofInt_mono lower,
    Binary64.value_ofInt_mono upper⟩

/-! ## Intersections -/

/-- What has numbers between its bounds lies within an intersection iff it lies within both intervals. -/
theorem within_intersect_iff (properI : i.Proper) (properJ : j.Proper) (proper : k.Proper)
    (some : k.isEmpty = false) : k.Within (i.intersect j) ↔ k.Within i ∧ k.Within j := by
  simp only [within_iff_encloses proper some, encloses_intersect_iff properI properJ]
  tauto

theorem intersect_eq_empty_of_isEmpty (none : (i.intersect j).isEmpty = true) : i.intersect j = empty := by
  unfold intersect at none ⊢
  dsimp only at none ⊢
  split_ifs at none ⊢
  · rfl
  · rfl
  · contradiction

/-- An intersection lies within its first interval. A bound of the second one that is no number does not
    narrow. -/
theorem within_intersect_left (proper : i.Proper) (j : Interval) : (i.intersect j).Within i := by
  refine ⟨proper_intersect proper j, proper, ?_, ?_⟩
  · unfold intersect
    dsimp only
    split_ifs
    · simp [empty]
    · simp [empty]
    · exact Binary64.le_value_larger proper.lo _
  · unfold intersect
    dsimp only
    split_ifs
    · simp [empty]
    · simp [empty]
    · exact Binary64.value_smaller_le proper.hi _

theorem within_intersect_right (properI : i.Proper) (properJ : j.Proper) : (i.intersect j).Within j := by
  have proper := proper_intersect properI j
  cases none : (i.intersect j).isEmpty with
  | true =>
      rw [intersect_eq_empty_of_isEmpty none]
      exact within_empty properJ
  | false => exact ((within_intersect_iff properI properJ proper none).1 (.refl proper)).2

theorem Within.intersect (left : i.Within i') (right : j.Within j') :
    (i.intersect j).Within (i'.intersect j') := by
  have proper := proper_intersect left.inner j
  cases none : (i.intersect j).isEmpty with
  | true =>
      rw [intersect_eq_empty_of_isEmpty none]
      exact within_empty (proper_intersect left.outer j')
  | false =>
      have ⟨first, second⟩ := (within_intersect_iff left.inner right.inner proper none).1 (.refl proper)
      exact (within_intersect_iff left.outer right.outer proper none).2
        ⟨first.trans left, second.trans right⟩

/-! ## Sums and differences -/

theorem proper_outward (lo hi : Float) : (outward lo hi).Proper := by
  constructor
  · simp only [outward]
    split_ifs with nan
    · simp
    · exact Binary64.isNumber_previous (Bool.eq_false_iff.2 nan)
  · simp only [outward]
    split_ifs with nan
    · simp
    · exact Binary64.isNumber_next (Bool.eq_false_iff.2 nan)

theorem proper_neg (proper : i.Proper) : (-i).Proper := by
  change (Interval.neg i).Proper
  unfold Interval.neg
  split_ifs
  · exact proper_empty
  · exact ⟨Binary64.isNumber_neg.2 proper.hi, Binary64.isNumber_neg.2 proper.lo⟩

theorem proper_add (i j : Interval) : (i + j).Proper := by
  change (Interval.add i j).Proper
  unfold Interval.add
  split_ifs
  · exact proper_empty
  · exact proper_outward _ _

theorem Within.neg (within : i.Within j) : (-i).Within (-j) := by
  cases none : i.isEmpty with
  | true =>
      have same : -i = empty := if_pos none
      rw [same]
      exact within_empty (proper_neg within.outer)
  | false =>
      have same : -i = { lo := -i.hi, hi := -i.lo } := if_neg (by simp [none])
      have same' : -j = { lo := -j.hi, hi := -j.lo } := if_neg (by simp [within.notEmpty none])
      refine ⟨proper_neg within.inner, proper_neg within.outer, ?_, ?_⟩
      · rw [same, same', Binary64.value_neg, Binary64.value_neg, EReal.neg_le_neg_iff]
        exact within.upper
      · rw [same, same', Binary64.value_neg, Binary64.value_neg, EReal.neg_le_neg_iff]
        exact within.lower

section

variable {x y : Float}

/-- The lower bound of a sum is one number below its rounding. Opposite infinities do not bound anything. -/
theorem exists_lower_add (numberX : IsNumber x) (numberY : IsNumber y) (hi : Float) :
    ∃ z, Rounds (value x + value y) z ∧ (outward (x + y) hi).lo = previous z := by
  rcases Binary64.rounds_add_or_isNaN numberX numberY with ⟨rounds, -⟩ | ⟨nan, sum, -⟩
  · have number : (x + y).isNaN = false := rounds.isNumber
    exact ⟨x + y, rounds, if_neg (by rw [number]; decide)⟩
  · exact ⟨-infinity, sum ▸ Binary64.rounds_bot (by simp) (by simp), if_pos nan⟩

/-- The upper bound of a sum is one number above its rounding. -/
theorem exists_upper_add (numberX : IsNumber x) (numberY : IsNumber y) (lo : Float) :
    ∃ z, Rounds (-(-value x + -value y)) z ∧ (outward lo (x + y)).hi = next z := by
  rcases Binary64.rounds_add_or_isNaN numberX numberY with ⟨rounds, sum⟩ | ⟨nan, -, sum⟩
  · have number : (x + y).isNaN = false := rounds.isNumber
    exact ⟨x + y, sum ▸ rounds, if_neg (by rw [number]; decide)⟩
  · exact ⟨infinity, sum ▸ Binary64.rounds_top (by simp) (by simp), if_pos nan⟩

end

theorem Within.add (left : i.Within i') (right : j.Within j') : (i + j).Within (i' + j') := by
  cases none : i.isEmpty || j.isEmpty with
  | true =>
      have same : i + j = empty := if_pos none
      rw [same]
      exact within_empty (proper_add i' j')
  | false =>
      have ⟨someI, someJ⟩ := Bool.or_eq_false_iff.1 none
      have same : i + j = outward (i.lo + j.lo) (i.hi + j.hi) := if_neg (by simp [none])
      have same' : i' + j' = outward (i'.lo + j'.lo) (i'.hi + j'.hi) :=
        if_neg (by simp [left.notEmpty someI, right.notEmpty someJ])
      rw [same, same']
      refine ⟨proper_outward _ _, proper_outward _ _, ?_, ?_⟩
      · obtain ⟨z, rounds, lower⟩ := exists_lower_add left.inner.lo right.inner.lo (i.hi + j.hi)
        obtain ⟨z', rounds', lower'⟩ := exists_lower_add left.outer.lo right.outer.lo (i'.hi + j'.hi)
        rw [lower, lower']
        exact Binary64.previous_mono rounds'.isNumber rounds.isNumber
          (rounds'.mono rounds (add_le_add left.lower right.lower))
      · obtain ⟨z, rounds, upper⟩ := exists_upper_add left.inner.hi right.inner.hi (i.lo + j.lo)
        obtain ⟨z', rounds', upper'⟩ := exists_upper_add left.outer.hi right.outer.hi (i'.lo + j'.lo)
        rw [upper, upper']
        refine Binary64.next_mono rounds.isNumber rounds'.isNumber (rounds.mono rounds' ?_)
        rw [EReal.neg_le_neg_iff]
        exact add_le_add (EReal.neg_le_neg_iff.2 left.upper) (EReal.neg_le_neg_iff.2 right.upper)

theorem Within.sub (left : i.Within i') (right : j.Within j') : (i - j).Within (i' - j') :=
  left.add right.neg

/-! ## Sums of many intervals -/

section

variable {parts parts' : List Interval}

theorem within_sum (all : List.Forall₂ Within parts parts') : (sum parts).Within (sum parts') := by
  have fold {acc acc' : Interval} (start : acc.Within acc') :
      (parts.foldl (· + ·) acc).Within (parts'.foldl (· + ·) acc') := by
    induction all generalizing acc acc' with
    | nil => exact start
    | cons head _ ih => exact ih (start.add head)
  exact fold (.refl (proper_ofBounds _ _))

theorem within_sumsBefore (all : List.Forall₂ Within parts parts') {acc acc' : Interval}
    (start : acc.Within acc') : List.Forall₂ Within (sumsBefore acc parts) (sumsBefore acc' parts') := by
  induction all generalizing acc acc' with
  | nil => exact .nil
  | cons head _ ih => exact .cons start (ih (start.add head))

theorem within_sumsAfter (all : List.Forall₂ Within parts parts') :
    List.Forall₂ Within (sumsAfter parts) (sumsAfter parts') := by
  let pass (part : Interval) (state : List Interval × Interval) := (state.2 :: state.1, state.2 + part)
  have fold : List.Forall₂ Within (parts.foldr pass ([], point 0.0)).1 (parts'.foldr pass ([], point 0.0)).1 ∧
      (parts.foldr pass ([], point 0.0)).2.Within (parts'.foldr pass ([], point 0.0)).2 := by
    induction all with
    | nil => exact ⟨.nil, .refl (proper_ofBounds _ _)⟩
    | cons head _ ih => exact ⟨.cons ih.2 ih.1, ih.2.add head⟩
  exact fold.1

theorem within_sumsOfOthers (all : List.Forall₂ Within parts parts') :
    List.Forall₂ Within (sumsOfOthers parts) (sumsOfOthers parts') := by
  have zip {before before' after after' : List Interval} (first : List.Forall₂ Within before before')
      (second : List.Forall₂ Within after after') :
      List.Forall₂ Within (List.zipWith (· + ·) before after) (List.zipWith (· + ·) before' after') := by
    induction first generalizing after after' with
    | nil => exact .nil
    | cons head _ ih =>
        cases second with
        | nil => exact .nil
        | cons head' tail' => exact .cons (head.add head') (ih tail')
  exact zip (within_sumsBefore all (.refl (proper_ofBounds _ _))) (within_sumsAfter all)

end

/-! ## Widths -/

/-- The width of an interval around a real number is the rounded distance of the bounds. -/
theorem Encloses.rounds_width {r : ℝ} (encloses : i.Encloses r) :
    Rounds (value i.hi - value i.lo) i.width := by
  have below : value i.lo ≠ ⊤ := (encloses.lower.trans_lt (EReal.coe_lt_top r)).ne
  have above : value i.hi ≠ ⊥ := ((EReal.bot_lt_coe r).trans_le encloses.upper).ne'
  rw [width, encloses.notEmpty, if_neg Bool.false_ne_true, Binary64.sub_eq_add, sub_eq_add_neg, ← Binary64.value_neg]
  refine Binary64.rounds_add encloses.proper.hi (Binary64.isNumber_neg.2 encloses.proper.lo) ?_ ?_
  · rintro ⟨-, bottom⟩
    rw [Binary64.value_neg, EReal.neg_eq_bot_iff] at bottom
    exact below bottom
  · rintro ⟨bottom, -⟩
    exact above bottom

/-- The width of a bounded interval is its exact width, rounded. -/
theorem isRounding_width {a b : ℝ} (proper : i.Proper) (some : i.isEmpty = false) (low : value i.lo = a)
    (high : value i.hi = b) : Binary64.IsRounding (b - a) i.width := by
  rw [width, some, if_neg Bool.false_ne_true]
  exact Binary64.isRounding_sub proper.hi proper.lo high low

/-- An interval is at least as wide as any interval within it. -/
theorem Within.width_le {r : ℝ} (within : i.Within j) (encloses : i.Encloses r) :
    value i.width ≤ value j.width :=
  encloses.rounds_width.mono (within.encloses encloses).rounds_width (EReal.sub_le_sub within.upper within.lower)

end StatBounds.Interval
