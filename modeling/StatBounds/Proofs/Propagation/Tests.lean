import StatBounds.Proofs.Propagation.Monotone

/-! # What domains say about half-open tests

A domain is asked whether it has a value in a half-open interval, and whether its values pass a test. The answers are
exact: they are what the values, taken one by one, say. The exception is a half-open interval whose bounds are in the
wrong order. It is empty, but a real domain that reaches over both of its bounds is taken to have a value in it.
-/

namespace StatBounds

open Binary64 (IsNumber value)

variable {d : Domain} {r : RealDomain} {a : Atom} {lb ub : Float}

/-! ## Values and half-open intervals -/

namespace Domain

/-- A value of a domain, as it is read: the number of an integer, or an extended real between the bounds. -/
def Reads (d : Domain) (x : EReal) : Prop :=
  match d with
  | finite s => ∃ n ∈ s.values, value (Binary64.ofInt n) = x
  | real r => r.interval.Encloses x

/-- A real domain reaches from below the upper to beyond the lower one of two bounds in the wrong order. -/
def Straddles (d : Domain) (lb ub : Float) : Prop :=
  match d with
  | finite _ => False
  | real r => value ub ≤ value lb ∧ value r.interval.lo < value ub ∧ value lb ≤ value r.interval.hi

/-- A domain that is not empty has a value. -/
theorem exists_reads (proper : d.Proper) (some : d.isEmpty = false) : ∃ x, d.Reads x := by
  cases d with
  | finite s =>
      obtain ⟨n, member⟩ := List.isEmpty_eq_false_iff_exists_mem.1 some
      exact ⟨_, n, member, rfl⟩
  | real r => exact ⟨_, proper, le_rfl, (Interval.isEmpty_eq_false_iff proper).1 some⟩

theorem meets_real_iff (proper : r.interval.Proper) (some : r.interval.isEmpty = false) (numberLb : IsNumber lb)
    (numberUb : IsNumber ub) :
    r.meets lb ub = true ↔ value r.interval.lo < value ub ∧ value lb ≤ value r.interval.hi := by
  simp only [RealDomain.meets, some, Bool.not_false, Bool.true_and, Bool.and_eq_true, decide_eq_true_eq, ge_iff_le,
    Binary64.lt_iff, Binary64.le_iff, proper.lo, proper.hi, numberLb, numberUb, true_and]

/-- A domain meets a half-open interval iff it has a value in it, or straddles bounds in the wrong order. -/
theorem meets_iff_reads (proper : d.Proper) (some : d.isEmpty = false) (numberLb : IsNumber lb)
    (numberUb : IsNumber ub) :
    d.meets lb ub = true ↔ (∃ x, d.Reads x ∧ value lb ≤ x ∧ x < value ub) ∨ d.Straddles lb ub := by
  cases d with
  | finite s =>
      refine (IntSet.meets_iff numberLb).trans ?_
      simp only [Reads, Straddles, or_false, Binary64.le_iff, Binary64.lt_iff, numberLb, numberUb,
        Binary64.isNumber_ofInt, true_and]
      constructor
      · rintro ⟨n, member, above, below⟩
        exact ⟨_, ⟨n, member, rfl⟩, above, below⟩
      · rintro ⟨_, ⟨n, member, rfl⟩, above, below⟩
        exact ⟨n, member, above, below⟩
  | real r =>
      rcases lt_or_ge (value lb) (value ub) with less | reversed
      · refine (RealDomain.meets_iff (Binary64.lt_iff.2 ⟨numberLb, numberUb, less⟩)).trans ?_
        exact (or_iff_left fun straddles => absurd less (not_lt.2 straddles.1)).symm
      · refine (meets_real_iff proper some numberLb numberUb).trans ⟨fun across => .inr ⟨reversed, across⟩, ?_⟩
        rintro (⟨x, -, above, below⟩ | ⟨-, across⟩)
        · exact absurd (lt_of_le_of_lt above below) (not_lt.2 reversed)
        · exact across

end Domain

/-! ## Tests -/

namespace Atom

/-- No bound of the test is NaN. -/
def IsNumeric : Atom → Prop
  | atLeast _ bound | below _ bound => IsNumber bound
  | within _ lb ub => IsNumber lb ∧ IsNumber ub

/-- The domain straddles the bounds of the test. -/
def Straddled (d : Domain) : Atom → Prop
  | atLeast _ _ | below _ _ => False
  | within _ lb ub => d.Straddles lb ub

/-- The bounds of a real domain pass a test iff all of its values do. -/
theorem entailed_iff (proper : r.interval.Proper) (some : r.interval.isEmpty = false) :
    a.entailed r = true ↔ ∀ x, r.interval.Encloses x → a.Holds x := by
  refine ⟨fun entailed x encloses => holds_of_entailed encloses entailed, fun all => ?_⟩
  have order := (Interval.isEmpty_eq_false_iff proper).1 some
  have least := all _ ⟨proper, le_rfl, order⟩
  have greatest := all _ ⟨proper, order, le_rfl⟩
  cases a <;>
    simp only [entailed, ge_iff_le, Bool.and_eq_true, decide_eq_true_eq, Binary64.le_iff, Binary64.lt_iff]
  case atLeast => exact ⟨least.1, proper.lo, least.2⟩
  case below => exact ⟨proper.hi, greatest.1, greatest.2⟩
  case within => exact ⟨⟨least.1.1, proper.lo, least.1.2⟩, proper.hi, greatest.2.1, greatest.2.2⟩

/-- A real domain refutes a test iff none of its values passes, unless it straddles the bounds. -/
theorem refuted_iff (proper : r.interval.Proper) (some : r.interval.isEmpty = false) (numeric : a.IsNumeric) :
    a.refuted r = true ↔ (∀ x, r.interval.Encloses x → ¬ a.Holds x) ∧ ¬ a.Straddled (.real r) := by
  have order := (Interval.isEmpty_eq_false_iff proper).1 some
  cases a with
  | atLeast v bound =>
      refine ⟨fun refuted => ⟨fun x encloses => not_holds_of_refuted encloses refuted, id⟩, fun all => ?_⟩
      have fails := all.1 _ ⟨proper, order, le_rfl⟩
      exact decide_eq_true (Binary64.lt_iff.2 ⟨proper.hi, numeric, not_le.1 fun le => fails ⟨numeric, le⟩⟩)
  | below v bound =>
      refine ⟨fun refuted => ⟨fun x encloses => not_holds_of_refuted encloses refuted, id⟩, fun all => ?_⟩
      have fails := all.1 _ ⟨proper, le_rfl, order⟩
      exact decide_eq_true (Binary64.le_iff.2 ⟨numeric, proper.lo, not_lt.1 fun less => fails ⟨numeric, less⟩⟩)
  | within v lb ub =>
      have meets : r.meets lb ub = true ↔ _ := Domain.meets_iff_reads (d := .real r) proper some numeric.1 numeric.2
      rw [refuted, Bool.not_eq_true', ← Bool.not_eq_true, meets, not_or]
      refine and_congr_left fun _ => ⟨fun apart x encloses holds => ?_, fun fails => ?_⟩
      · exact apart ⟨x, encloses, holds.1.2, holds.2.2⟩
      · rintro ⟨x, encloses, low, high⟩
        exact fails x encloses ⟨⟨numeric.1, low⟩, numeric.2, high⟩

/-- A test is known to hold iff every value of the domain passes it. -/
theorem truth_eq_yes_iff (proper : d.Proper) (some : d.isEmpty = false) (numeric : a.IsNumeric) :
    a.truth d = .yes ↔ ∀ x, d.Reads x → a.Holds x := by
  cases d with
  | finite s =>
      rw [truth_finite_eq_yes]
      simp only [holds_iff (Binary64.isNumber_ofInt _)]
      constructor
      · rintro all _ ⟨n, member, rfl⟩
        exact all n member
      · exact fun all n member => all _ ⟨n, member, rfl⟩
  | real r =>
      have all := entailed_iff (a := a) proper some
      have fail := refuted_iff proper some numeric
      simp only [truth]
      split_ifs with refuted entailed
      · obtain ⟨x, encloses⟩ := Domain.exists_reads (d := .real r) proper some
        exact iff_of_false (by simp) fun each => (fail.1 refuted).1 x encloses (each x encloses)
      · exact iff_of_true rfl (all.1 entailed)
      · exact iff_of_false (by simp) fun each => entailed (all.2 each)

/-- A test is known to fail iff no value of the domain passes it, unless the domain straddles the bounds. -/
theorem truth_eq_no_iff (proper : d.Proper) (some : d.isEmpty = false) (numeric : a.IsNumeric) :
    a.truth d = .no ↔ (∀ x, d.Reads x → ¬ a.Holds x) ∧ ¬ a.Straddled d := by
  cases d with
  | finite s =>
      have within : ¬ a.Straddled (.finite s) := by cases a <;> exact id
      rw [truth_finite_eq_no, and_iff_right some, and_iff_left within]
      simp only [Bool.not_eq_true', ← Bool.not_eq_true, holds_iff (Binary64.isNumber_ofInt _)]
      constructor
      · rintro fail _ ⟨n, member, rfl⟩
        exact fail n member
      · exact fun fail n member => fail _ ⟨n, member, rfl⟩
  | real r =>
      refine Iff.trans ?_ (refuted_iff proper some numeric)
      simp only [truth]
      split_ifs with refuted entailed <;> simp [refuted]

end Atom

/-- What a domain that is not empty says about half-open intervals and about tests is what its values say, unless it
    straddles bounds in the wrong order. -/
theorem Domain.tests_exact (d : Domain) (proper : d.Proper) (some : d.isEmpty = false) :
    (∀ lb ub, IsNumber lb → IsNumber ub →
      (d.meets lb ub = true ↔ (∃ x, d.Reads x ∧ value lb ≤ x ∧ x < value ub) ∨ d.Straddles lb ub)) ∧
    ∀ a : Atom, a.IsNumeric →
      (a.truth d = .yes ↔ ∀ x, d.Reads x → a.Holds x) ∧
      (a.truth d = .no ↔ (∀ x, d.Reads x → ¬ a.Holds x) ∧ ¬ a.Straddled d) ∧
      (a.truth d = .unknown ↔
        (∃ x, d.Reads x ∧ ¬ a.Holds x) ∧ ((∃ x, d.Reads x ∧ a.Holds x) ∨ a.Straddled d)) := by
  refine ⟨fun lb ub => meets_iff_reads proper some, fun a numeric => ?_⟩
  have yes := Atom.truth_eq_yes_iff proper some numeric
  have no := Atom.truth_eq_no_iff proper some numeric
  have neither : a.truth d = .unknown ↔ ¬ a.truth d = .yes ∧ ¬ a.truth d = .no := by
    cases a.truth d <;> simp
  refine ⟨yes, no, neither.trans ?_⟩
  rw [yes, no, not_and_or, not_not]
  push Not
  rfl

/-- From zero to ten, some numbers are below ten, and one is not. -/
theorem Domain.tests_exact_below_ten : ∃ d : Domain, d.isEmpty = false ∧
    (∃ x, d.Reads x ∧ ¬ x < value 10.0) ∧ ∃ x, d.Reads x ∧ x < value 10.0 := by
  let d : Domain := .real { interval := .ofBounds 0.0 10.0, precision := 0.5 }
  have number : IsNumber 10.0 := by rfl
  obtain ⟨⟨x, outside, fails⟩, ⟨y, inside, holds⟩ | straddled⟩ :=
    ((tests_exact d (Interval.proper_ofBounds _ _) (by decide +kernel)).2 (.below ⟨0⟩ 10.0) number).2.2.1
      (by decide +kernel)
  · exact ⟨d, by decide +kernel, ⟨x, outside, fun less => fails ⟨number, less⟩⟩, y, inside, holds.2⟩
  · exact straddled.elim

/-- No number is at least five and below three. From zero to ten, one is taken to be. -/
theorem Domain.tests_of_reversed_bounds : ∃ d : Domain, d.Proper ∧ d.isEmpty = false ∧
    d.meets 5.0 3.0 = true ∧ (Atom.within ⟨0⟩ 5.0 3.0).truth d = .unknown ∧
    ∀ x, d.Reads x → ¬ (value 5.0 ≤ x ∧ x < value 3.0) := by
  refine ⟨.real { interval := .ofBounds 0.0 10.0, precision := 0.5 }, Interval.proper_ofBounds _ _, by decide +kernel,
    by decide +kernel, by decide +kernel, fun x _ ⟨above, below⟩ => ?_⟩
  have reversed : (3.0 : Float) ≤ 5.0 := by decide +kernel
  exact absurd (lt_of_le_of_lt above below) (not_lt.2 (Binary64.le_iff.1 reversed).2.2)

end StatBounds
