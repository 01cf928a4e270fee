import StatBounds.Bin
import StatBounds.Proofs.Interval.Enclosure

/-! # What domains admit

A variable is given an integer of 64 bits or a real number, and an integer is read as the binary64
number that it becomes. Since that conversion keeps the order, the hull of a finite domain encloses the
readings of all of its values, and the least values decide whether a domain meets a bin.
-/

namespace StatBounds

open Binary64 (IsNumber value)

namespace IntSet

theorem mem_filter {s : IntSet} {keep : Int → Bool} {n : Int} :
    n ∈ (s.filter keep).values ↔ n ∈ s.values ∧ keep n = true := by
  rw [filter, List.mem_filter]

theorem min?_le {s : IntSet} {least n : Int} (first : s.min? = some least) (member : n ∈ s.values) :
    least ≤ n := by
  obtain ⟨values, increasing⟩ := s
  cases values with
  | nil => simp at member
  | cons head tail =>
      obtain rfl : head = least := by simpa [min?] using first
      rcases List.mem_cons.1 member with rfl | later
      · exact le_rfl
      · exact ((List.pairwise_cons.1 increasing).1 n later).le

theorem le_max? {s : IntSet} {greatest n : Int} (last : s.max? = some greatest)
    (member : n ∈ s.values) : n ≤ greatest := by
  obtain ⟨values, increasing⟩ := s
  obtain ⟨initial, rfl⟩ := List.getLast?_eq_some_iff.1 last
  rcases List.mem_append.1 member with earlier | final
  · exact ((List.pairwise_append.1 increasing).2.2 n earlier greatest (by simp)).le
  · exact (List.mem_singleton.1 final).le

theorem exists_extremes {s : IntSet} {n : Int} (member : n ∈ s.values) :
    ∃ least greatest, s.min? = some least ∧ s.max? = some greatest := by
  obtain ⟨values, increasing⟩ := s
  cases values with
  | nil => simp at member
  | cons head tail =>
      exact ⟨head, (head :: tail).getLast (by simp), rfl, List.getLast?_eq_getLast_of_ne_nil (by simp)⟩

theorem encloses_hull {s : IntSet} {n : Int} (member : n ∈ s.values) :
    s.hull.Encloses (value (Binary64.ofInt n)) := by
  obtain ⟨least, greatest, first, last⟩ := exists_extremes member
  simp only [hull, first, last]
  exact Interval.encloses_ofBounds
    (fun _ => Binary64.value_ofInt_mono (min?_le first member))
    (fun _ => Binary64.value_ofInt_mono (le_max? last member))

/-- A set meets a half-open interval iff some member is not below its lower bound, but below its upper one. -/
theorem meets_iff_not_lt {s : IntSet} {lb ub : Float} :
    s.meets lb ub = true ↔ ∃ n ∈ s.values, ¬ Binary64.ofInt n < lb ∧ Binary64.ofInt n < ub := by
  obtain ⟨values, increasing⟩ := s
  induction values with
  | nil => simp [meets]
  | cons head tail ih =>
      obtain ⟨least, increasing⟩ := List.pairwise_cons.1 increasing
      by_cases early : Binary64.ofInt head < lb
      · -- A member below the interval is passed over.
        have skipped : (IntSet.mk (head :: tail) ‹_›).meets lb ub = (IntSet.mk tail increasing).meets lb ub := by
          simp [meets, early]
        have outside : ¬ (¬ Binary64.ofInt head < lb ∧ Binary64.ofInt head < ub) := fun inside => inside.1 early
        rw [skipped]
        refine (ih increasing).trans ?_
        simp only [List.mem_cons, exists_eq_or_imp, outside, false_or]
      · -- The first other member is the least one that can lie in the interval.
        have decided : (IntSet.mk (head :: tail) ‹_›).meets lb ub = decide (Binary64.ofInt head < ub) := by
          simp [meets, early]
        rw [decided, decide_eq_true_iff]
        constructor
        · exact fun inside => ⟨head, by simp, early, inside⟩
        · rintro ⟨n, member, -, inside⟩
          have order : head ≤ n := by
            rcases List.mem_cons.1 member with rfl | later
            · exact le_rfl
            · exact (least n later).le
          rw [Binary64.lt_iff] at inside ⊢
          exact ⟨Binary64.isNumber_ofInt head, inside.2.1,
            lt_of_le_of_lt (Binary64.value_ofInt_mono order) inside.2.2⟩

/-- A set meets a half-open interval iff one of its members is read as a number in it. -/
theorem meets_iff {s : IntSet} {lb ub : Float} (number : IsNumber lb) :
    s.meets lb ub = true ↔ ∃ n ∈ s.values, lb ≤ Binary64.ofInt n ∧ Binary64.ofInt n < ub := by
  rw [meets_iff_not_lt]
  refine exists_congr fun n => and_congr_right fun _ => and_congr_left fun _ => ?_
  rw [Binary64.not_lt_iff (Binary64.isNumber_ofInt n) number, Binary64.le_iff]
  simp [number]

end IntSet

/-! ## Domains and half-open intervals -/

/-- A real domain meets a half-open interval iff it encloses an extended real in it. -/
theorem RealDomain.meets_iff {r : RealDomain} {lb ub : Float} (less : lb < ub) :
    r.meets lb ub = true ↔ ∃ x : EReal, r.interval.Encloses x ∧ value lb ≤ x ∧ x < value ub := by
  obtain ⟨numberLb, numberUb, order⟩ := Binary64.lt_iff.1 less
  simp only [meets, Bool.and_eq_true, Bool.not_eq_true', decide_eq_true_eq, ge_iff_le,
    Binary64.lt_iff, Binary64.le_iff]
  constructor
  · rintro ⟨⟨some, lo, -, low⟩, -, hi, high⟩
    have proper : r.interval.Proper := ⟨lo, hi⟩
    rw [Interval.isEmpty_eq_false_iff proper] at some
    refine ⟨max (value r.interval.lo) (value lb), ⟨proper, le_max_left _ _, max_le some high⟩,
      le_max_right _ _, max_lt low order⟩
  · rintro ⟨x, encloses, above, below⟩
    exact ⟨⟨encloses.notEmpty, encloses.proper.lo, numberUb, lt_of_le_of_lt encloses.lower below⟩,
      numberLb, encloses.proper.hi, above.trans encloses.upper⟩

/-- A real domain that meets a half-open interval has numbers for bounds, the lower one below the interval's end and the
    upper one not below its beginning. -/
theorem RealDomain.meets_iff_bounds {r : RealDomain} {lb ub : Float} :
    r.meets lb ub = true ↔ r.interval.Proper ∧ r.interval.isEmpty = false ∧ r.interval.lo < ub ∧ lb ≤ r.interval.hi := by
  simp only [meets, Bool.and_eq_true, Bool.not_eq_true', decide_eq_true_eq, ge_iff_le]
  constructor
  · rintro ⟨⟨some, low⟩, high⟩
    exact ⟨⟨(Binary64.lt_iff.1 low).1, (Binary64.le_iff.1 high).2.1⟩, some, low, high⟩
  · rintro ⟨-, some, low, high⟩
    exact ⟨⟨some, low⟩, high⟩

namespace Domain

/-- A domain without NaN among its bounds. -/
def Proper : Domain → Prop
  | finite _ => True
  | real r => r.interval.Proper

/-- Some value of a domain lies in `[lb, ub)`: an integer by its binary64 number, a real variable by
    an extended real. -/
def Reaches (d : Domain) (lb ub : Float) : Prop :=
  match d with
  | finite s => ∃ n ∈ s.values, lb ≤ Binary64.ofInt n ∧ Binary64.ofInt n < ub
  | real r => ∃ x : EReal, r.interval.Encloses x ∧ value lb ≤ x ∧ x < value ub

theorem Reaches.notEmpty {d : Domain} {lb ub : Float} (reaches : d.Reaches lb ub) : d.isEmpty = false := by
  cases d with
  | finite s =>
      obtain ⟨n, member, -⟩ := reaches
      exact List.isEmpty_eq_false_iff_exists_mem.2 ⟨n, member⟩
  | real r =>
      obtain ⟨x, encloses, -⟩ := reaches
      exact encloses.notEmpty

theorem proper_of_meets {d : Domain} {lb ub : Float} (meets : d.meets lb ub = true) : d.Proper := by
  cases d with
  | finite s => trivial
  | real r => exact (RealDomain.meets_iff_bounds.1 meets).1

/-- The test for common values with a half-open interval is exact if the interval is not the wrong way round. -/
theorem meets_iff_reaches {d : Domain} {lb ub : Float} (less : lb < ub) :
    d.meets lb ub = true ↔ d.Reaches lb ub := by
  cases d with
  | finite s => exact IntSet.meets_iff (Binary64.lt_iff.1 less).1
  | real r => exact RealDomain.meets_iff less

end Domain

/-! ## Bins -/

/-- An extended real lies in a bin, which its lower bound belongs to and its upper bound does not. Nothing lies in a bin
    with a bound that is no number. -/
structure Bin.Has (bin : Bin) (x : EReal) : Prop where
  numberLb : IsNumber bin.lb
  numberUb : IsNumber bin.ub
  above : value bin.lb ≤ x
  below : x < value bin.ub

namespace Bin

variable {bin : Bin} {x : EReal}

theorem Has.proper (has : bin.Has x) : bin.Proper :=
  Binary64.lt_iff.2 ⟨has.numberLb, has.numberUb, has.above.trans_lt has.below⟩

theorem Proper.has_iff (proper : bin.Proper) : bin.Has x ↔ value bin.lb ≤ x ∧ x < value bin.ub := by
  obtain ⟨numberLb, numberUb, -⟩ := Binary64.lt_iff.1 proper
  exact ⟨fun has => ⟨has.above, has.below⟩, fun within => ⟨numberLb, numberUb, within.1, within.2⟩⟩

theorem contains_iff {x : Float} (number : IsNumber x) : bin.contains x = true ↔ bin.Has (value x) := by
  simp only [contains, Bool.and_eq_true, decide_eq_true_eq, Binary64.le_iff, Binary64.lt_iff]
  exact ⟨fun ⟨⟨numberLb, _, above⟩, _, numberUb, below⟩ => ⟨numberLb, numberUb, above, below⟩,
    fun has => ⟨⟨has.numberLb, number, has.above⟩, number, has.numberUb, has.below⟩⟩

theorem proper_closure (bin : Bin) : bin.closure.Proper :=
  Interval.proper_ofBounds _ _

/-- The closure of a bin whose lower bound comes first. -/
theorem Proper.closure_eq (proper : bin.Proper) : bin.closure = { lo := bin.lb, hi := bin.ub } := by
  obtain ⟨numberLb, numberUb, -⟩ := Binary64.lt_iff.1 proper
  exact Interval.ofBounds_of_isNumber numberLb numberUb

theorem Proper.closure_notEmpty (proper : bin.Proper) : bin.closure.isEmpty = false := by
  rw [Interval.isEmpty_eq_false_iff bin.proper_closure, proper.closure_eq]
  exact (Binary64.lt_iff.1 proper).2.2.le

/-- The closure of a bin begins before each number of the bin and ends after it. -/
theorem Has.begins_ends (has : bin.Has x) : bin.closure.BeginsBy x ∧ bin.closure.EndsFrom x := by
  have some := has.proper.closure_notEmpty
  have same := has.proper.closure_eq
  exact ⟨⟨some, same ▸ has.above⟩, some, same ▸ has.below.le⟩

end Bin

/-! ## Choices for variables -/

/-- What a variable may be given: an integer of 64 bits or a real number. -/
inductive Choice where
  | int (n : Int64)
  | real (r : ℝ)

namespace Choice

/-- The real number as which a choice is read. -/
noncomputable def reading : Choice → ℝ
  | int n => (value (Binary64.ofInt n.toInt)).toReal
  | real r => r

theorem value_ofInt (n : Int64) : value (Binary64.ofInt n.toInt) = ((int n).reading : EReal) := by
  have low : -2 ^ 63 ≤ n.toInt := n.le_toInt
  have high : n.toInt < 2 ^ 63 := n.toInt_lt
  obtain ⟨r, finite⟩ := Binary64.value_ofInt_word low high
  rw [reading, finite, EReal.toReal_coe]

theorem reading_int {n : Int64} (small : |n.toInt| ≤ 2 ^ 53) : (int n).reading = n.toInt := by
  rw [reading, Binary64.value_ofInt_exact small, EReal.toReal_coe]

/-- A small integer fits a word, and is read as itself. -/
theorem reading_ofInt {n : ℤ} (small : |n| ≤ 2 ^ 53) :
    (Int64.ofInt n).toInt = n ∧ (int (Int64.ofInt n)).reading = n := by
  have ⟨low, high⟩ := abs_le.1 small
  have word : (Int64.ofInt n).toInt = n := Int64.toInt_ofInt_of_le (by omega) (by omega)
  exact ⟨word, by rw [reading_int (by rwa [word]), word]⟩

end Choice

/-- An integer lies in a bin exactly if the number that it is read as does. -/
theorem Bin.contains_ofInt_iff {bin : Bin} {n : Int64} :
    bin.contains (Binary64.ofInt n.toInt) = true ↔ bin.Has (Choice.int n).reading := by
  rw [contains_iff (Binary64.isNumber_ofInt _), Choice.value_ofInt]

namespace Domain

/-- A choice is a value of a domain. -/
def Admits : Domain → Choice → Prop
  | finite s, .int n => n.toInt ∈ s.values
  | real d, .real r => d.interval.Encloses r
  | _, _ => False

theorem Admits.exists_int {s : IntSet} {c : Choice} (admits : (finite s).Admits c) :
    ∃ n, c = .int n ∧ n.toInt ∈ s.values := by
  cases c with
  | int n => exact ⟨n, rfl, admits⟩
  | real r => exact admits.elim

theorem Admits.encloses_hull {d : Domain} {c : Choice} (admits : d.Admits c) :
    d.hull.Encloses c.reading := by
  cases d with
  | finite s =>
      obtain ⟨n, rfl, member⟩ := admits.exists_int
      rw [← Choice.value_ofInt]
      exact IntSet.encloses_hull member
  | real d =>
      cases c with
      | int n => exact admits.elim
      | real r => exact admits

end Domain

end StatBounds
