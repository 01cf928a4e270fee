import StatBounds.Proofs.Interval.Emptiness
import StatBounds.Proofs.Store.Significance

/-! # Reported values

A fixed real variable is reported by the middle of its interval: half of the width on top of the lower bound, in three
rounded steps. Half of a rounded width is never rounded beyond the exact width, also where so few bits are left that
halving is not exact, and a sum keeps the order. So the middle lies between the bounds as long as the width is computed
as a finite number. A greater width makes the middle infinite, but a variable of such a width is not fixed.
-/

namespace StatBounds

open Binary64 (IsNumber value infinity)

/-! ## Middles -/

namespace Interval

variable {i : Interval} {a b : ℝ}

/-- At least one bound is finite. -/
def HasFiniteBound (i : Interval) : Prop :=
  i.lo.isFinite = true ∨ i.hi.isFinite = true

/-- Both bounds are finite, but their distance is computed as infinite. -/
def Overflows (i : Interval) : Prop :=
  i.lo.isFinite = true ∧ i.hi.isFinite = true ∧ i.width.isInf = true

namespace Spans

theorem midpoint_eq (spans : i.Spans a b) : i.midpoint = i.lo + i.width / 2.0 := by
  have finiteLo := Binary64.isFinite_of_real spans.proper.lo spans.lower
  have finiteHi := Binary64.isFinite_of_real spans.proper.hi spans.upper
  simp only [midpoint, finiteLo, finiteHi, width, spans.notEmpty, Bool.false_eq_true, if_false]

/-- A width that is computed as infinite is too great. -/
theorem width_top (spans : i.Spans a b) (infinite : i.width.isInf = true) : value i.width = ⊤ := by
  have nonneg : 0 ≤ value i.width :=
    spans.isRounding_width.rounds.nonneg (EReal.coe_nonneg.2 (sub_nonneg.2 spans.ordered))
  exact (Binary64.isInf_iff.1 infinite).resolve_right fun bottom => absurd nonneg (by simp [bottom])

theorem isInf_width_self (spans : i.Spans a a) : i.width.isInf = false := by
  have rounding := spans.isRounding_width
  rw [sub_self] at rounding
  exact Binary64.isInf_of_real (r := 0) rounding.value_zero

/-- Half of a finite width is rounded to a number between zero and the exact width. -/
theorem exists_half (spans : i.Spans a b) (finite : i.width.isInf = false) :
    IsNumber (i.width / 2.0) ∧ ∃ h : ℝ, value (i.width / 2.0) = h ∧ 0 ≤ h ∧ h ≤ b - a := by
  have number := spans.isRounding_width.isNumber
  have nonneg := sub_nonneg.2 spans.ordered
  have small := Binary64.two_margin
  obtain ⟨w, valueW⟩ := Binary64.exists_real_of_not_isInf finite
  have nearW := abs_le.1 (spans.near_width valueW)
  rw [small] at nearW
  have half := Binary64.isRounding_div number (by rfl) valueW Binary64.value_two two_ne_zero
  obtain ⟨h, valueH, nonnegH, -⟩ := half.exists_real (by linarith) number valueW (by linarith)
  have nearH := abs_le.1 (half.near (by linarith) valueH).1
  rw [small] at nearH
  refine ⟨half.isNumber, h, valueH, nonnegH, ?_⟩
  -- Half of the least number is lost at most, so the half is no multiple of that number beyond the width.
  exact Binary64.le_of_lt_add_tiny (Binary64.exists_eq_mul_tiny valueH)
    (Binary64.exists_sub_eq_mul_tiny spans.upper spans.lower) (by linarith [Binary64.tiny_pos])

theorem midpoint_mem (spans : i.Spans a b) (finite : i.width.isInf = false) :
    i.midpoint.isFinite = true ∧ i.contains i.midpoint = true := by
  obtain ⟨number, h, valueH, nonneg, le⟩ := spans.exists_half finite
  have middle := Binary64.isRounding_add spans.proper.lo number spans.lower valueH
  rw [← spans.midpoint_eq] at middle
  have lower : value i.lo ≤ value i.midpoint := by
    refine (Binary64.rounds_self spans.proper.lo).mono middle.rounds ?_
    rw [spans.lower, EReal.coe_le_coe_iff]
    linarith
  have upper : value i.midpoint ≤ value i.hi := by
    refine middle.rounds.mono (Binary64.rounds_self spans.proper.hi) ?_
    rw [spans.upper, EReal.coe_le_coe_iff]
    linarith
  have bounded : value i.midpoint ≠ ⊤ := fun top => by simp [top, spans.upper] at upper
  have bounded' : value i.midpoint ≠ ⊥ := fun bottom => by simp [bottom, spans.lower] at lower
  exact ⟨Binary64.isFinite_of_real middle.isNumber (EReal.coe_toReal bounded bounded').symm,
    (contains_iff spans.proper _).2 ⟨middle.isNumber, spans.proper, lower, upper⟩⟩

/-- The middle of an interval of infinite width is infinite. -/
theorem midpoint_top (spans : i.Spans a b) (infinite : i.width.isInf = true) :
    IsNumber i.midpoint ∧ value i.midpoint = ⊤ := by
  have half := Binary64.rounds_half_top (spans.width_top infinite)
  have top := half.value_top
  rw [spans.midpoint_eq]
  exact Binary64.value_add_top spans.proper.lo half.isNumber (by simp [spans.lower]) (by simp [top]) (.inr top)

end Spans

theorem contains_lo (proper : i.Proper) (some : i.isEmpty = false) : i.contains i.lo = true :=
  (contains_iff proper _).2 ⟨proper.lo, proper, le_rfl, (isEmpty_eq_false_iff proper).1 some⟩

theorem contains_hi (proper : i.Proper) (some : i.isEmpty = false) : i.contains i.hi = true :=
  (contains_iff proper _).2 ⟨proper.hi, proper, (isEmpty_eq_false_iff proper).1 some, le_rfl⟩

/-- The middle is a finite number in the interval, if there is a finite bound and the width does not overflow. -/
theorem midpoint_mem (proper : i.Proper) (some : i.isEmpty = false) (bound : i.HasFiniteBound)
    (fits : ¬ i.Overflows) : i.midpoint.isFinite = true ∧ i.contains i.midpoint = true := by
  cases finiteLo : i.lo.isFinite with
  | true =>
      cases finiteHi : i.hi.isFinite with
      | true =>
          obtain ⟨a, b, spans⟩ := exists_spans proper some finiteLo finiteHi
          exact spans.midpoint_mem (Bool.eq_false_iff.2 fun infinite => fits ⟨finiteLo, finiteHi, infinite⟩)
      | false =>
          have same : i.midpoint = i.lo := by simp only [midpoint, finiteLo, finiteHi]
          rw [same]
          exact ⟨finiteLo, contains_lo proper some⟩
  | false =>
      have finiteHi : i.hi.isFinite = true := bound.resolve_left (by simp [finiteLo])
      have same : i.midpoint = i.hi := by simp only [midpoint, finiteLo, finiteHi]
      rw [same]
      exact ⟨finiteHi, contains_hi proper some⟩

/-- The middle is infinite if the width overflows. -/
theorem midpoint_of_overflows (proper : i.Proper) (some : i.isEmpty = false) (overflows : i.Overflows) :
    (i.midpoint == infinity) = true := by
  obtain ⟨finiteLo, finiteHi, infinite⟩ := overflows
  obtain ⟨a, b, spans⟩ := exists_spans proper some finiteLo finiteHi
  obtain ⟨number, top⟩ := spans.midpoint_top infinite
  rw [Binary64.beq_iff, Binary64.value_infinity]
  exact ⟨number, Binary64.isNumber_infinity, top⟩

/-- The middle is a finite number in the interval exactly if the width does not overflow. -/
theorem midpoint_mem_iff (proper : i.Proper) (some : i.isEmpty = false) (bound : i.HasFiniteBound) :
    i.midpoint.isFinite = true ∧ i.contains i.midpoint = true ↔ ¬ i.Overflows := by
  refine ⟨fun ⟨finite, _⟩ overflows => ?_, midpoint_mem proper some bound⟩
  obtain ⟨r, real⟩ := Binary64.exists_real_of_isFinite finite
  have top := (Binary64.beq_iff.1 (midpoint_of_overflows proper some overflows)).2.2
  rw [real, Binary64.value_infinity] at top
  exact EReal.coe_ne_top r top

/-- The bounds are two to the power of 1023 away from zero, so their distance is too great for a finite number. -/
theorem midpoint_outside :
    let i := ofBounds (-Float.ofBits 0x7FE0000000000000) (.ofBits 0x7FE0000000000000)
    i.Proper ∧ i.isEmpty = false ∧ i.HasFiniteBound ∧ i.midpoint.isFinite = false ∧
      i.contains i.midpoint = false := by
  refine ⟨proper_ofBounds _ _, ?_, .inl ?_, ?_, ?_⟩ <;> decide +kernel

end Interval

/-! ## Fixed domains -/

theorem IntSet.exists_hull_of_isFixed {s : IntSet} (fixed : s.isFixed = true) :
    ∃ n, s.hull = .point (Binary64.ofInt n) := by
  obtain ⟨n, single⟩ := List.length_eq_one_iff.1 (beq_iff_eq.1 fixed)
  exact ⟨n, by simp [hull, min?, max?, single, Interval.point]⟩

theorem IntSet.isInf_width_of_isFixed {s : IntSet} {a b : ℝ} (spans : s.hull.Spans a b)
    (fixed : s.isFixed = true) : s.hull.width.isInf = false := by
  obtain ⟨n, point⟩ := exists_hull_of_isFixed fixed
  have ends : s.hull.lo = s.hull.hi := by
    rw [point, Interval.point, Interval.ofBounds_of_isNumber (by simp) (by simp)]
  have same : a = b := EReal.coe_eq_coe_iff.1 (spans.lower.symm.trans (ends ▸ spans.upper))
  subst same
  exact spans.isInf_width_self

theorem RealDomain.isInf_width_of_isFixed {r : RealDomain} {a b : ℝ} (spans : r.interval.Spans a b)
    (precise : validPrecision r.precision = true) (fixed : r.isFixed = true) : r.interval.width.isInf = false := by
  simp only [isFixed, Bool.and_eq_true, decide_eq_true_eq] at fixed
  obtain ⟨-, p, finite, -⟩ := exists_of_validPrecision precise
  have within := (Binary64.le_iff.1 fixed.2).2.2
  refine Bool.eq_false_iff.2 fun infinite => ?_
  rw [spans.width_top infinite, finite] at within
  exact absurd within (by simp)

namespace Domain

variable {d : Domain}

theorem hull_of_isFixed (sound : d.Sound) (fixed : d.isFixed = true) : d.hull.Proper ∧ d.hull.isEmpty = false := by
  cases d with
  | finite s =>
      obtain ⟨n, point⟩ := IntSet.exists_hull_of_isFixed fixed
      have encloses : (Interval.point (Binary64.ofInt n)).Encloses (value (Binary64.ofInt n)) :=
        Interval.encloses_ofBounds (fun _ => le_rfl) fun _ => le_rfl
      rw [hull, point]
      exact ⟨encloses.proper, encloses.notEmpty⟩
  | real r => exact sound

/-- The hull of a fixed domain is not too wide for a finite number. -/
theorem not_overflows_of_isFixed (sound : d.Sound)
    (precise : ∀ r, d = .real r → validPrecision r.precision = true) (fixed : d.isFixed = true) :
    ¬ d.hull.Overflows := by
  obtain ⟨proper, some⟩ := hull_of_isFixed sound fixed
  rintro ⟨finiteLo, finiteHi, infinite⟩
  obtain ⟨a, b, spans⟩ := Interval.exists_spans proper some finiteLo finiteHi
  cases d with
  | finite s =>
      have finite := IntSet.isInf_width_of_isFixed spans fixed
      exact absurd infinite (by simp [hull, finite])
  | real r =>
      have finite := RealDomain.isInf_width_of_isFixed spans (precise r rfl) fixed
      exact absurd infinite (by simp [hull, finite])

theorem mem_hull_of_value? {y : Float} (sound : d.Sound)
    (precise : ∀ r, d = .real r → validPrecision r.precision = true) (bound : d.hull.HasFiniteBound)
    (reported : d.value? = some y) : y.isFinite = true ∧ d.hull.contains y = true := by
  obtain ⟨fixed, middle⟩ := Option.ite_none_right_eq_some.1 reported
  obtain rfl := Option.some.inj middle
  obtain ⟨proper, some⟩ := hull_of_isFixed sound fixed
  exact Interval.midpoint_mem proper some bound (not_overflows_of_isFixed sound precise fixed)

end Domain

/-! ## Stores -/

/-- The middle of an interval with a finite bound is a finite number inside, unless the distance of finite bounds is
    computed as infinite; then the middle is infinite too. No reachable store reports such a middle: the value of a
    variable with a finite bound is a finite number between its bounds. -/
theorem Reachable.reports_inside {batches : List Store} {store : Store} (reachable : Reachable batches store) :
    (∀ i : Interval, i.Proper → i.isEmpty = false → i.HasFiniteBound →
      (i.midpoint.isFinite = true ∧ i.contains i.midpoint = true ↔ ¬ i.Overflows) ∧
      (i.Overflows → (i.midpoint == infinity) = true)) ∧
    ∀ v x y, store.vars.get? v = some x → (store.vars.bounds v).HasFiniteBound → x.domain.value? = some y →
      y.isFinite = true ∧ (store.vars.bounds v).contains y = true := by
  constructor
  · intro i proper some bound
    exact ⟨Interval.midpoint_mem_iff proper some bound, Interval.midpoint_of_overflows proper some⟩
  · intro v x y found bound reported
    have sound := reachable.invariant.1.sound x (Array.mem_of_getElem? found)
    have hull : store.vars.bounds v = x.domain.hull := by simp only [Variables.bounds, found]
    rw [hull] at bound ⊢
    exact Domain.mem_hull_of_value? sound (reachable.precise.1 v x · found) bound reported

/-- Half of the least positive number is halfway between two numbers, and the middle of zero and that number is zero. -/
theorem reports_inside_least :
    let i := Interval.ofBounds 0.0 (.ofBits 1)
    let j := Interval.ofBounds (-Float.ofBits 0x7FE0000000000000) (.ofBits 0x7FE0000000000000)
    let store := Store.fresh.extended "x" (.real { interval := i, precision := 0.5 })
    i.contains i.midpoint = true ∧ (j.midpoint == infinity) = true ∧ Reachable [] store ∧
      ∃ x, store.vars.get? ⟨0⟩ = some x ∧ x.domain.value? = some 0.0 ∧ (store.vars.bounds ⟨0⟩).contains 0.0 = true := by
  intro i j store
  have reachable : Reachable [] store :=
    Store.reachable_extended_real Store.reachable_fresh (by decide +kernel) (by rfl) (by rfl) (by decide +kernel)
      (by simp [Store.fresh, Variables.empty])
  obtain ⟨middles, values⟩ := reachable.reports_inside
  have bounded : i.HasFiniteBound := .inl (by decide +kernel)
  have fits : ¬ i.Overflows := fun overflows => absurd overflows.2.2 (by decide +kernel)
  have inside := ((middles i (Interval.proper_ofBounds _ _) (by decide +kernel) bounded).1.2 fits).2
  have overflows : j.Overflows := ⟨by decide +kernel, by decide +kernel, by decide +kernel⟩
  have infinite := (middles j (Interval.proper_ofBounds _ _) (by decide +kernel) (.inl overflows.1)).2 overflows
  let x : Variable := { name := "x", domain := .real { interval := i, precision := 0.5 } }
  have found : store.vars.get? ⟨0⟩ = some x := rfl
  have reported : x.domain.value? = some 0.0 := by decide +kernel
  exact ⟨inside, infinite, reachable, x, found, reported, (values _ x _ found bounded reported).2⟩

end StatBounds
