import StatBounds.Proofs.Interval.Isotone

/-! # Empty intervals and NaN

Infinite bounds lead to sums without a value, and operations meet empty intervals of many forms. Whatever is computed,
no bound of a result is NaN, so the computed comparisons of bounds are those of their values. A result of arithmetic is
empty exactly if an operand is: from two intervals that are not empty the computed lower bound never comes out above
the upper one.
-/

namespace StatBounds.Interval

open Binary64 (IsNumber value infinity)

variable {i j : Interval}

/-- The intervals that are computed from given bounds. -/
inductive Computed : Interval → Prop
  | ofBounds (lo hi : Float) : Computed (ofBounds lo hi)
  | add {i j : Interval} : Computed i → Computed j → Computed (i + j)
  | sub {i j : Interval} : Computed i → Computed j → Computed (i - j)
  | mul {i j : Interval} : Computed i → Computed j → Computed (i * j)
  | div {i j : Interval} : Computed i → Computed j → Computed (i / j)
  | neg {i : Interval} : Computed i → Computed (-i)
  | sqr {i : Interval} : Computed i → Computed i.sqr
  | sqrt {i : Interval} : Computed i → Computed i.sqrt
  | sqrPreimage {i j : Interval} : Computed i → Computed j → Computed (i.sqrPreimage j)
  | intersect {i j : Interval} : Computed i → Computed j → Computed (i.intersect j)
  | hull {i j : Interval} : Computed i → Computed j → Computed (i.hull j)

/-- No operation makes a bound that is NaN. -/
theorem Computed.proper (computed : Computed i) : i.Proper := by
  induction computed with
  | ofBounds lo hi => exact proper_ofBounds lo hi
  | add => exact proper_add _ _
  | sub => exact proper_add _ _
  | mul => exact proper_mul _ _
  | div => exact proper_div _ _
  | neg _ proper => exact proper_neg proper
  | sqr => exact proper_sqr _
  | sqrt => exact proper_sqrt _
  | sqrPreimage _ _ proper => exact proper_sqrPreimage proper _
  | intersect _ _ proper => exact proper_intersect proper _
  | hull _ _ properI properJ => exact proper_hull properI properJ

/-! ## Results of arithmetic -/

/-- An interval that is not empty encloses its lower bound. -/
theorem encloses_lo (proper : i.Proper) (some : i.isEmpty = false) : i.Encloses (value i.lo) :=
  encloses_bound proper some (by simp)

/-- If an operation answers an empty operand by the empty interval and all others by intervals that are not empty, its
    result is empty exactly if an operand is. -/
theorem isEmpty_binary (op : Interval → Interval → Interval)
    (none : (i.isEmpty || j.isEmpty) = true → op i j = empty)
    (some : i.isEmpty = false → j.isEmpty = false → (op i j).isEmpty = false) :
    (op i j).isEmpty = (i.isEmpty || j.isEmpty) := by
  cases given : i.isEmpty || j.isEmpty with
  | true =>
      rw [none given]
      decide +kernel
  | false =>
      have ⟨someI, someJ⟩ := Bool.or_eq_false_iff.1 given
      exact some someI someJ

theorem isEmpty_neg (proper : i.Proper) : (-i).isEmpty = i.isEmpty := by
  cases given : i.isEmpty with
  | true =>
      have same : -i = empty := if_pos given
      rw [same]
      decide +kernel
  | false =>
      have same : -i = { lo := -i.hi, hi := -i.lo } := if_neg (by simp [given])
      rw [isEmpty_eq_false_iff (proper_neg proper), same, Binary64.value_neg, Binary64.value_neg,
        EReal.neg_le_neg_iff]
      exact (isEmpty_eq_false_iff proper).1 given

theorem isEmpty_add (properI : i.Proper) (properJ : j.Proper) : (i + j).isEmpty = (i.isEmpty || j.isEmpty) := by
  refine isEmpty_binary (· + ·) (fun none => if_pos none) fun someI someJ => ?_
  have same : i + j = outward (i.lo + j.lo) (i.hi + j.hi) := if_neg (by simp [someI, someJ])
  obtain ⟨low, roundsLow, lower⟩ := exists_lower_add properI.lo properJ.lo (i.hi + j.hi)
  obtain ⟨high, roundsHigh, upper⟩ := exists_upper_add properI.hi properJ.hi (i.lo + j.lo)
  have ordered : value i.lo + value j.lo ≤ -(-value i.hi + -value j.hi) := by
    rcases Binary64.rounds_add_or_isNaN properI.hi properJ.hi with ⟨-, same⟩ | ⟨-, -, bottom⟩
    · rw [same]
      exact add_le_add ((isEmpty_eq_false_iff properI).1 someI) ((isEmpty_eq_false_iff properJ).1 someJ)
    · rw [bottom, EReal.neg_bot]
      exact le_top
  rw [same, isEmpty_eq_false_iff (proper_outward _ _), lower, upper]
  calc value (Binary64.previous low) ≤ value low := Binary64.value_previous_le roundsLow.isNumber
    _ ≤ value high := roundsLow.mono roundsHigh ordered
    _ ≤ value (Binary64.next high) := Binary64.value_le_next roundsHigh.isNumber

theorem isEmpty_sub (properI : i.Proper) (properJ : j.Proper) : (i - j).isEmpty = (i.isEmpty || j.isEmpty) := by
  rw [← isEmpty_neg properJ]
  exact isEmpty_add properI (proper_neg properJ)

theorem isEmpty_mul (properI : i.Proper) (properJ : j.Proper) : (i * j).isEmpty = (i.isEmpty || j.isEmpty) :=
  isEmpty_binary (· * ·) (fun none => if_pos none) fun someI someJ =>
    ((encloses_lo properI someI).mul (encloses_lo properJ someJ)).notEmpty

theorem isEmpty_div (properI : i.Proper) (properJ : j.Proper) : (i / j).isEmpty = (i.isEmpty || j.isEmpty) :=
  isEmpty_binary (· / ·) (fun none => if_pos none) fun someI someJ =>
    ((encloses_lo properI someI).div (encloses_lo properJ someJ)).notEmpty

theorem isEmpty_sqr (proper : i.Proper) : i.sqr.isEmpty = i.isEmpty := by
  cases given : i.isEmpty with
  | true =>
      have same : i.sqr = empty := if_pos given
      rw [same]
      decide +kernel
  | false => exact (encloses_lo proper given).sqr.notEmpty

/-! ## Common numbers -/

theorem contains_iff (proper : i.Proper) (x : Float) : i.contains x = true ↔ IsNumber x ∧ i.Encloses (value x) := by
  simp only [contains, Bool.and_eq_true, decide_eq_true_eq, Binary64.le_iff, proper.lo, proper.hi, true_and]
  constructor
  · rintro ⟨⟨number, lower⟩, -, upper⟩
    exact ⟨number, proper, lower, upper⟩
  · rintro ⟨number, encloses⟩
    exact ⟨⟨number, encloses.lower⟩, number, encloses.upper⟩

theorem contains_intersect (properI : i.Proper) (properJ : j.Proper) (x : Float) :
    (i.intersect j).contains x = (i.contains x && j.contains x) := by
  rw [Bool.eq_iff_iff, Bool.and_eq_true, contains_iff (proper_intersect properI j), contains_iff properI,
    contains_iff properJ, encloses_intersect_iff properI properJ]
  tauto

/-- An interval that is not empty contains its lower bound. -/
theorem isEmpty_iff_contains (proper : i.Proper) : i.isEmpty = true ↔ ∀ x, i.contains x = false := by
  constructor
  · intro none x
    rw [Bool.eq_false_iff, ne_eq, contains_iff proper]
    rintro ⟨-, encloses⟩
    exact absurd none (by simp [encloses.notEmpty])
  · intro nowhere
    by_contra some
    have inside := (contains_iff proper i.lo).2 ⟨proper.lo, encloses_lo proper (by simpa using some)⟩
    exact absurd inside (by simp [nowhere])

/-- No bound of a computed interval is NaN. Sums, differences, products, quotients, negations and squares are empty
    exactly if an operand is. An intersection contains the numbers that lie in both intervals and no others, and it is
    empty exactly if there are none. -/
theorem computed_disciplined (computedI : Computed i) (computedJ : Computed j) :
    (i.lo.isNaN = false ∧ i.hi.isNaN = false) ∧
      ((i + j).isEmpty = (i.isEmpty || j.isEmpty) ∧ (i - j).isEmpty = (i.isEmpty || j.isEmpty) ∧
        (i * j).isEmpty = (i.isEmpty || j.isEmpty) ∧ (i / j).isEmpty = (i.isEmpty || j.isEmpty) ∧
        (-i).isEmpty = i.isEmpty ∧ i.sqr.isEmpty = i.isEmpty) ∧
      ((i.intersect j).isEmpty = true ↔ ¬ ∃ x, i.contains x = true ∧ j.contains x = true) ∧
      ∀ x, (i.intersect j).contains x = true ↔ i.contains x = true ∧ j.contains x = true := by
  have properI := computedI.proper
  have properJ := computedJ.proper
  have both (x : Float) : (i.intersect j).contains x = true ↔ i.contains x = true ∧ j.contains x = true := by
    rw [contains_intersect properI properJ, Bool.and_eq_true]
  refine ⟨⟨properI.lo, properI.hi⟩, ⟨isEmpty_add properI properJ, isEmpty_sub properI properJ,
    isEmpty_mul properI properJ, isEmpty_div properI properJ, isEmpty_neg properI, isEmpty_sqr properI⟩, ?_, both⟩
  rw [isEmpty_iff_contains (proper_intersect properI j)]
  simp only [← both, not_exists, Bool.not_eq_true]

/-- Both bounds of the difference of two infinite points are NaN before they are widened, and bounds in the wrong order
    make an interval that is empty but not the canonical one. -/
theorem computed_disciplined_infinite_difference :
    let i := point infinity - point infinity
    let j := ofBounds 5.0 3.0
    Computed i ∧ Computed j ∧ i.lo.isNaN = false ∧ j ≠ empty ∧ (i / j).isEmpty = true ∧ (-i).isEmpty = false ∧
      (i.intersect j).isEmpty = true ∧ ¬ ∃ x, i.contains x = true ∧ j.contains x = true := by
  intro i j
  have computedI : Computed i := .sub (.ofBounds _ _) (.ofBounds _ _)
  have computedJ : Computed j := .ofBounds _ _
  obtain ⟨⟨number, -⟩, ⟨-, -, -, quotient, negation, -⟩, common, -⟩ := computed_disciplined computedI computedJ
  have someI : i.isEmpty = false := by decide +kernel
  have noneJ : j.isEmpty = true := by decide +kernel
  have apart : (i.intersect j).isEmpty = true := by decide +kernel
  exact ⟨computedI, computedJ, number, by decide +kernel, quotient.trans (by rw [someI, noneJ]; rfl),
    negation.trans someI, apart, common.1 apart⟩

end StatBounds.Interval
