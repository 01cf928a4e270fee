import StatBounds.Proofs.Encoding.Bins
import StatBounds.Proofs.Except

/-! # Bins as partitions

The order of neighbouring bins carries over to all pairs, so that accepted bins are disjoint. The bins between
increasing boundaries hold what lies between the first and the last one. Whether bins cover a domain is decided by its
values or by the ends of the bins, and both mean that each value lies in exactly one bin.
-/

namespace StatBounds

open Binary64 (IsNumber value)

/-- The numbers that a domain admits. -/
def Domain.HasNumber : Domain → Float → Prop
  | finite s, x => ∃ n ∈ s.values, x = Binary64.ofInt n
  | real r, x => r.interval.contains x = true

namespace Bin

/-- The number of bins that a number lies in. -/
def count (bins : List Bin) (x : Float) : Nat :=
  bins.countP (·.contains x)

/-- Each number that a domain admits lies in exactly one of the bins. -/
def EachInOne (bins : List Bin) (d : Domain) : Prop :=
  ∀ x, d.HasNumber x → count bins x = 1

variable {bin : Bin} {bins : List Bin} {task : String} {boundaries : List Float} {d : Domain} {r : RealDomain}

theorem isNumber_of_contains {x : Float} (inside : bin.contains x = true) : IsNumber x := by
  simp only [contains, Bool.and_eq_true, decide_eq_true_eq] at inside
  exact (Binary64.lt_iff.1 inside.2).1

/-! ## Accepted bins -/

theorem proper_of_ofBounds {lb ub : Float} (built : ofBounds lb ub = .ok bin) : bin.Proper := by
  unfold ofBounds at built
  split_ifs at built with less
  obtain rfl := Except.ok.inj built
  exact less

theorem ub_le_lb_iff {a b : Bin} (properA : a.Proper) (properB : b.Proper) :
    a.ub ≤ b.lb ↔ value a.ub ≤ value b.lb := by
  rw [Binary64.le_iff, and_iff_right (Binary64.lt_iff.1 properA).2.1, and_iff_right (Binary64.lt_iff.1 properB).1]

theorem checkOrder_of_pairwise (proper : ∀ bin ∈ bins, bin.Proper)
    (sorted : bins.Pairwise fun a b => value a.ub ≤ value b.lb) : checkOrder task bins = .ok () := by
  induction bins with
  | nil => rfl
  | cons a rest ih =>
      cases rest with
      | nil => rfl
      | cons b rest =>
          have ⟨first, later⟩ := List.pairwise_cons.1 sorted
          obtain ⟨-, numberUb, -⟩ := Binary64.lt_iff.1 (proper a (by simp))
          obtain ⟨numberLb, -, -⟩ := Binary64.lt_iff.1 (proper b (by simp))
          have ordered : ¬ a.ub > b.lb := (Binary64.not_lt_iff numberLb numberUb).2 (first b (by simp))
          rw [checkOrder, if_neg ordered]
          exact ih (fun bin member => proper bin (List.mem_cons_of_mem a member)) later

theorem check_iff (proper : ∀ bin ∈ bins, bin.Proper) :
    check task bins = .ok () ↔ bins ≠ [] ∧ bins.Pairwise fun a b => a.ub ≤ b.lb := by
  have same : (bins.Pairwise fun a b => a.ub ≤ b.lb) ↔ bins.Pairwise fun a b => value a.ub ≤ value b.lb :=
    List.Pairwise.iff_of_mem fun memberA memberB => ub_le_lb_iff (proper _ memberA) (proper _ memberB)
  rw [same]
  constructor
  · refine fun checked => ⟨?_, pairwise_of_check proper checked⟩
    rintro rfl
    cases checked
  · rintro ⟨some, sorted⟩
    rw [check, if_neg (by simpa using some)]
    exact checkOrder_of_pairwise proper sorted

theorem count_le_one (sorted : bins.Pairwise fun a b => value a.ub ≤ value b.lb) (x : Float) : count bins x ≤ 1 := by
  induction bins with
  | nil => exact Nat.zero_le 1
  | cons a rest ih =>
      have ⟨first, later⟩ := List.pairwise_cons.1 sorted
      rw [count, List.countP_cons]
      split_ifs with inside
      · -- The bins after the one that holds the number begin above it.
        have number := isNumber_of_contains inside
        have none : rest.countP (·.contains x) = 0 := by
          refine List.countP_eq_zero.2 fun b member other => ?_
          have below := ((contains_iff number).1 inside).below
          have above := ((contains_iff number).1 other).above
          exact absurd (below.trans_le (first b member)) (not_lt.2 above)
        rw [none]
      · exact ih later

theorem count_eq_one_iff (sorted : bins.Pairwise fun a b => value a.ub ≤ value b.lb) {x : Float} :
    count bins x = 1 ↔ ∃ bin ∈ bins, bin.contains x = true := by
  rw [← List.countP_pos_iff]
  have most := count_le_one sorted x
  unfold count at most ⊢
  omega

/-! ## Bins between boundaries -/

theorem exists_betweenAll_iff : (∃ made, betweenAll boundaries = .ok made) ↔ boundaries.IsChain (· < ·) := by
  induction boundaries with
  | nil => simp [betweenAll]
  | cons lb rest ih =>
      cases rest with
      | nil => simp [betweenAll]
      | cons ub rest =>
          rw [List.isChain_cons_cons, ← ih, betweenAll]
          simp only [bind_eq_ok, pure_eq_ok, ofBounds]
          constructor
          · rintro ⟨made, bin, first, bins, later, -⟩
            split_ifs at first with less
            exact ⟨less, bins, later⟩
          · rintro ⟨less, bins, later⟩
            exact ⟨_, _, if_pos less, bins, later, rfl⟩

theorem lt_trans {x y z : Float} (first : x < y) (second : y < z) : x < z := by
  rw [Binary64.lt_iff] at first second ⊢
  exact ⟨first.1, second.2.1, first.2.2.trans second.2.2⟩

theorem pairwise_of_isChain (chain : boundaries.IsChain (· < ·)) : boundaries.Pairwise (· < ·) := by
  have : Trans (α := Float) (· < ·) (· < ·) (· < ·) := ⟨lt_trans⟩
  exact List.isChain_iff_pairwise.1 chain

/-- Increasing boundaries are numbers, if there are two at least. -/
theorem isNumber_of_pairwise (increasing : boundaries.Pairwise (· < ·)) (two : 2 ≤ boundaries.length) :
    ∀ b ∈ boundaries, IsNumber b := by
  match boundaries, two with
  | a :: b :: rest, _ =>
      have first := (List.pairwise_cons.1 increasing).1
      refine List.forall_mem_cons.2 ⟨?_, fun c member => (Binary64.lt_iff.1 (first c member)).2.1⟩
      exact (Binary64.lt_iff.1 (first b (by simp))).1

theorem exists_ofBoundaries_iff : (∃ made, ofBoundaries boundaries = .ok made) ↔
    2 ≤ boundaries.length ∧ (∀ b ∈ boundaries, b.isNaN = false) ∧ boundaries.Pairwise (· < ·) := by
  unfold ofBoundaries
  split_ifs with few
  · exact iff_of_false (by simp) fun enough => absurd enough.1 (not_le.2 few)
  · have two := not_lt.1 few
    rw [exists_betweenAll_iff]
    constructor
    · intro chain
      have increasing := pairwise_of_isChain chain
      exact ⟨two, isNumber_of_pairwise increasing two, increasing⟩
    · exact fun enough => enough.2.2.isChain

/-- The bins between boundaries hold each number from the first boundary to the last one once. -/
theorem count_betweenAll {first last : Float} {rest : List Float} {made : List Bin}
    (succeeds : betweenAll (first :: rest) = .ok made) (ends : (first :: rest).getLast? = some last) (x : Float) :
    count made x = if first ≤ x ∧ x < last then 1 else 0 := by
  induction rest generalizing first made with
  | nil =>
      obtain rfl : [] = made := Except.ok.inj succeeds
      obtain rfl : first = last := by simpa using ends
      have none : ¬ (first ≤ x ∧ x < first) := by
        rw [Binary64.le_iff, Binary64.lt_iff]
        exact fun both => absurd both.2.2.2 (not_lt.2 both.1.2.2)
      exact (if_neg none).symm
  | cons ub rest ih =>
      have chain := exists_betweenAll_iff.1 ⟨made, succeeds⟩
      have less := (List.isChain_cons_cons.1 chain).1
      have increasing := pairwise_of_isChain chain
      have numbers := isNumber_of_pairwise increasing (by simp)
      rw [betweenAll] at succeeds
      simp only [bind_eq_ok, pure_eq_ok, Except.ok.injEq, ofBounds, if_pos less, exists_eq_left'] at succeeds
      obtain ⟨bins, later, rfl⟩ := succeeds
      rw [List.getLast?_cons_cons] at ends
      have member := List.mem_of_getLast? ends
      have numberLast : IsNumber last := numbers last (List.mem_cons_of_mem _ member)
      have reaches : value ub ≤ value last := by
        rcases List.mem_cons.1 member with rfl | after
        · exact le_rfl
        · exact (Binary64.lt_iff.1 ((List.pairwise_cons.1 increasing.of_cons).1 last after)).2.2.le
      obtain ⟨numberFirst, numberUb, ordered⟩ := Binary64.lt_iff.1 less
      rw [count, List.countP_cons, ← count, ih later ends]
      by_cases number : IsNumber x
      · simp only [contains, Bool.and_eq_true, decide_eq_true_eq, Binary64.le_iff, Binary64.lt_iff, number, numberFirst,
          numberUb, numberLast, true_and]
        -- A number lies before the upper bound of the first bin or not, and only one side counts it.
        rcases lt_or_ge (value x) (value ub) with below | above
        · simp [below, below.trans_le reaches, not_le.2 below]
        · simp [above, not_lt.2 above, ordered.le.trans above]
      · simp [contains, Binary64.le_iff, Binary64.lt_iff, number]

/-! ## Coverage -/

theorem lb_head_le (proper : ∀ bin ∈ bins, bin.Proper)
    (sorted : bins.Pairwise fun a b => value a.ub ≤ value b.lb) {first : Bin} (head : bins.head? = some first)
    (member : bin ∈ bins) : value first.lb ≤ value bin.lb := by
  obtain ⟨rest, rfl⟩ := List.head?_eq_some_iff.1 head
  rcases List.mem_cons.1 member with rfl | later
  · exact le_rfl
  · exact (Binary64.lt_iff.1 (proper first (by simp))).2.2.le.trans ((List.pairwise_cons.1 sorted).1 bin later)

theorem ub_le_getLast (proper : ∀ bin ∈ bins, bin.Proper)
    (sorted : bins.Pairwise fun a b => value a.ub ≤ value b.lb) {last : Bin} (ends : bins.getLast? = some last)
    (member : bin ∈ bins) : value bin.ub ≤ value last.ub := by
  obtain ⟨initial, rfl⟩ := List.getLast?_eq_some_iff.1 ends
  rcases List.mem_append.1 member with earlier | final
  · have ordered := (List.pairwise_append.1 sorted).2.2 bin earlier last (by simp)
    exact ordered.trans (Binary64.lt_iff.1 (proper last (by simp))).2.2.le
  · rw [List.mem_singleton.1 final]

theorem covers_real_iff : covers bins (.real r) = true ↔ r.interval.Proper ∧ r.interval.isEmpty = false ∧
    gapFree bins = true ∧ ∃ first last, bins.head? = some first ∧ bins.getLast? = some last ∧
      (IsNumber first.lb ∧ value first.lb ≤ value r.interval.lo) ∧
      IsNumber last.ub ∧ value r.interval.hi < value last.ub := by
  cases head : bins.head? with
  | none => simp [covers, head]
  | some first =>
      cases ends : bins.getLast? with
      | none => simp [covers, ends]
      | some last =>
          simp only [covers, head, ends, Bool.and_eq_true, Bool.not_eq_true', decide_eq_true_eq, Binary64.le_iff,
            Binary64.lt_iff, Option.some.injEq, exists_and_left, exists_eq_left']
          constructor
          · rintro ⟨⟨⟨contiguous, notEmpty⟩, numberLb, lo, above⟩, hi, numberUb, below⟩
            exact ⟨⟨lo, hi⟩, notEmpty, contiguous, ⟨numberLb, above⟩, numberUb, below⟩
          · rintro ⟨⟨lo, hi⟩, notEmpty, contiguous, ⟨numberLb, above⟩, numberUb, below⟩
            exact ⟨⟨⟨contiguous, notEmpty⟩, numberLb, lo, above⟩, hi, numberUb, below⟩

theorem exists_has_of_covers_real {x : EReal} (covered : covers bins (.real r) = true)
    (inside : r.interval.Encloses x) : ∃ bin ∈ bins, bin.Has x := by
  obtain ⟨-, -, contiguous, first, last, head, ends, ⟨numberLb, above⟩, numberUb, below⟩ := covers_real_iff.1 covered
  exact exists_has_of_gapFree contiguous head ends numberLb numberUb (above.trans inside.lower)
    (inside.upper.trans_lt below)

/-- Bins without gaps cover an interval if they begin before it and one of them holds its upper bound. -/
theorem covers_of_ends (properBins : ∀ bin ∈ bins, bin.Proper)
    (sorted : bins.Pairwise fun a b => value a.ub ≤ value b.lb) (contiguous : gapFree bins = true)
    (proper : r.interval.Proper) (notEmpty : r.interval.isEmpty = false)
    (lower : ∀ first, bins.head? = some first → value first.lb ≤ value r.interval.lo)
    (upper : ∃ bin ∈ bins, bin.Has (value r.interval.hi)) : covers bins (.real r) = true := by
  obtain ⟨bin, member, has⟩ := upper
  have nonempty := List.ne_nil_of_mem member
  have head := List.head?_eq_some_head nonempty
  have ends := List.getLast?_eq_some_getLast nonempty
  have numberLb := (Binary64.lt_iff.1 (properBins _ (List.head_mem nonempty))).1
  have numberUb := (Binary64.lt_iff.1 (properBins _ (List.getLast_mem nonempty))).2.1
  exact covers_real_iff.2 ⟨proper, notEmpty, contiguous, _, _, head, ends, ⟨numberLb, lower _ head⟩, numberUb,
    has.below.trans_le (ub_le_getLast properBins sorted ends member)⟩

theorem encloses_of_hasNumber {x : Float} (has : (Domain.real r).HasNumber x) :
    IsNumber x ∧ r.interval.Encloses (value x) := by
  simp only [Domain.HasNumber, Interval.contains, Bool.and_eq_true, decide_eq_true_eq, Binary64.le_iff] at has
  obtain ⟨⟨lo, number, above⟩, -, hi, below⟩ := has
  exact ⟨number, ⟨lo, hi⟩, above, below⟩

theorem eachInOne_of_covers (sorted : bins.Pairwise fun a b => value a.ub ≤ value b.lb)
    (covered : covers bins d = true) : EachInOne bins d := by
  intro x has
  rw [count_eq_one_iff sorted]
  cases d with
  | finite s =>
      obtain ⟨n, member, rfl⟩ := has
      exact List.any_eq_true.1 (List.all_eq_true.1 covered n member)
  | real r =>
      obtain ⟨number, encloses⟩ := encloses_of_hasNumber has
      obtain ⟨bin, member, inside⟩ := exists_has_of_covers_real covered encloses
      exact ⟨bin, member, (contains_iff number).2 inside⟩

/-- The test for coverage is exact for finite domains, and for real ones over bins without gaps. -/
theorem covers_iff_eachInOne (properBins : ∀ bin ∈ bins, bin.Proper)
    (sorted : bins.Pairwise fun a b => value a.ub ≤ value b.lb) (proper : d.Proper) (notEmpty : d.isEmpty = false)
    (exact_ : d.isFinite = true ∨ gapFree bins = true) : covers bins d = true ↔ EachInOne bins d := by
  refine ⟨eachInOne_of_covers sorted, fun each => ?_⟩
  cases d with
  | finite s =>
      exact List.all_eq_true.2 fun n member =>
        List.any_eq_true.2 ((count_eq_one_iff sorted).1 (each _ ⟨n, member, rfl⟩))
  | real r =>
      have contiguous : gapFree bins = true := exact_.resolve_left (by simp [Domain.isFinite])
      have ordered := (Interval.isEmpty_eq_false_iff proper).1 notEmpty
      have bound {x : Float} (number : IsNumber x) (above : value r.interval.lo ≤ value x)
          (below : value x ≤ value r.interval.hi) : ∃ bin ∈ bins, bin.Has (value x) := by
        have has : (Domain.real r).HasNumber x := by
          simp only [Domain.HasNumber, Interval.contains, Bool.and_eq_true, decide_eq_true_eq, Binary64.le_iff]
          exact ⟨⟨proper.lo, number, above⟩, number, proper.hi, below⟩
        obtain ⟨bin, member, inside⟩ := (count_eq_one_iff sorted).1 (each x has)
        exact ⟨bin, member, (contains_iff number).1 inside⟩
      obtain ⟨bin, member, has⟩ := bound proper.lo le_rfl ordered
      exact covers_of_ends properBins sorted contiguous proper notEmpty
        (fun _ head => (lb_head_le properBins sorted head member).trans has.above) (bound proper.hi ordered le_rfl)

/-- The test is exact for the real numbers of an interval too, if it does not reach up to infinity. -/
theorem covers_real_iff_inOne (properBins : ∀ bin ∈ bins, bin.Proper)
    (sorted : bins.Pairwise fun a b => value a.ub ≤ value b.lb) (contiguous : gapFree bins = true) (proper : r.interval.Proper) (notEmpty : r.interval.isEmpty = false)
    (bounded : r.interval.hi.isFinite = true) :
    covers bins (.real r) = true ↔ ∀ y : ℝ, r.interval.Encloses y → InOne bins y := by
  simp only [inOne_iff sorted]
  refine ⟨fun covered y inside => exists_has_of_covers_real covered inside, fun each => ?_⟩
  obtain ⟨hi, top⟩ := Binary64.exists_real_of_isFinite bounded
  have ordered := (Interval.isEmpty_eq_false_iff proper).1 notEmpty
  have below {y : ℝ} (above : value r.interval.lo ≤ y) (less : y ≤ hi) {first : Bin}
      (head : bins.head? = some first) : value first.lb ≤ y := by
    obtain ⟨bin, member, has⟩ := each y ⟨proper, above, top ▸ EReal.coe_le_coe_iff.2 less⟩
    exact (lb_head_le properBins sorted head member).trans has.above
  refine covers_of_ends properBins sorted contiguous proper notEmpty (fun first head => ?_)
    (top ▸ each hi ⟨proper, top ▸ ordered, top.ge⟩)
  induction least : value r.interval.lo with
  | bot =>
      -- No lower bound of a bin is below all numbers of an interval without one, unless it is infinite too.
      refine (EReal.eq_bot_iff_forall_lt _).2 (fun y => ?_) |>.le
      have under := below (y := min y hi - 1) (by simp [least]) (by linarith [min_le_right y hi]) head
      exact under.trans_lt (EReal.coe_lt_coe_iff.2 (by linarith [min_le_left y hi]))
  | coe lo => exact below least.le (EReal.coe_le_coe_iff.1 (least ▸ top ▸ ordered)) head
  | top => exact le_top

/-- Bins that are built from their bounds are accepted if there are some and each ends before later ones begin; then no
    number lies in two of them. If such bins cover a domain, each of its values lies in exactly one bin. The reverse
    holds for finite domains, and for real ones over bins without gaps. Boundaries are accepted if they are at least two
    increasing numbers; then the bins hold the numbers from the first boundary to the last one, each once. -/
theorem bins_partition (task : String) (bins : List Bin) (boundaries : List Float) :
    ((∀ bin ∈ bins, ofBounds bin.lb bin.ub = .ok bin) →
      (check task bins = .ok () ↔ bins ≠ [] ∧ bins.Pairwise fun a b => a.ub ≤ b.lb) ∧
      (check task bins = .ok () → (∀ x, count bins x ≤ 1) ∧ ∀ d : Domain,
        (covers bins d = true → EachInOne bins d ∧ ∀ c, d.Admits c → InOne bins c.reading) ∧
        (d.Proper → d.isEmpty = false → d.isFinite = true ∨ gapFree bins = true →
          (covers bins d = true ↔ EachInOne bins d)) ∧
        (d.Proper → d.isEmpty = false → d.isFinite = false ∧ gapFree bins = true ∧ d.hull.hi.isFinite = true →
          (covers bins d = true ↔ ∀ c, d.Admits c → InOne bins c.reading)))) ∧
    ((∃ made, ofBoundaries boundaries = .ok made) ↔
      2 ≤ boundaries.length ∧ (∀ b ∈ boundaries, b.isNaN = false) ∧ boundaries.Pairwise (· < ·)) ∧
    ∀ made, ofBoundaries boundaries = .ok made →
      ∃ first last, boundaries.head? = some first ∧ boundaries.getLast? = some last ∧
        ∀ x, count made x = if first ≤ x ∧ x < last then 1 else 0 := by
  refine ⟨fun built => ?_, exists_ofBoundaries_iff, fun made succeeds => ?_⟩
  · have properBins : ∀ bin ∈ bins, bin.Proper := fun bin member => proper_of_ofBounds (built bin member)
    refine ⟨check_iff properBins, fun checked => ?_⟩
    have sorted := pairwise_of_check properBins checked
    refine ⟨count_le_one sorted, fun d => ⟨fun covered => ⟨eachInOne_of_covers sorted covered, fun c admits => ?_⟩,
      covers_iff_eachInOne properBins sorted, fun proper notEmpty ⟨real, contiguous, bounded⟩ => ?_⟩⟩
    · exact (inOne_iff sorted).2 (exists_has_of_covers covered admits)
    · cases d with
      | finite s => cases real
      | real r =>
          rw [covers_real_iff_inOne properBins sorted contiguous proper notEmpty bounded]
          constructor
          · intro each c admits
            cases c with
            | int n => exact admits.elim
            | real y => exact each y admits
          · exact fun each y inside => each (.real y) inside
  · obtain ⟨two, -, -⟩ := exists_ofBoundaries_iff.1 ⟨made, succeeds⟩
    match boundaries, two with
    | first :: rest, two =>
        rw [ofBoundaries, if_neg (not_lt.2 two)] at succeeds
        have ends := List.getLast?_eq_some_getLast (List.cons_ne_nil first rest)
        exact ⟨first, _, rfl, ends, count_betweenAll succeeds ends⟩

/-- The bins between 0, 3 and 5 hold 3 once and 5 not at all, and they cover the integers 0, 2 and 4 and the real
    numbers from 0 to 4.5. -/
theorem bins_partition_of_five :
    let bins : List Bin := [⟨0.0, 3.0⟩, ⟨3.0, 5.0⟩]
    let few : Domain := .finite ⟨[0, 2, 4], by decide⟩
    let wide : Domain := .real { interval := .ofBounds 0.0 4.5, precision := 1.0 }
    ofBoundaries [0.0, 3.0, 5.0] = .ok bins ∧ check "histogram" bins = .ok () ∧ count bins 3.0 = 1 ∧
      count bins 5.0 = 0 ∧ covers bins few = true ∧ EachInOne bins few ∧ covers bins wide = true ∧
      ∀ c, wide.Admits c → InOne bins c.reading := by
  intro bins few wide
  have first : (0.0 : Float) < 3.0 := by decide +kernel
  have second : (3.0 : Float) < 5.0 := by decide +kernel
  have succeeds : ofBoundaries [0.0, 3.0, 5.0] = .ok bins := by
    simp only [ofBoundaries, betweenAll, ofBounds]
    rw [if_neg (by decide), if_pos first, if_pos second]
    rfl
  obtain ⟨ofBuilt, -, between⟩ := bins_partition "histogram" bins [0.0, 3.0, 5.0]
  have built : ∀ bin ∈ bins, ofBounds bin.lb bin.ub = .ok bin := by
    simp only [bins, List.forall_mem_cons, ofBounds]
    exact ⟨if_pos first, if_pos second, fun bin member => absurd member (List.not_mem_nil)⟩
  obtain ⟨accepted, partition⟩ := ofBuilt built
  have checked := accepted.2 ⟨by simp [bins], by decide +kernel⟩
  have covered : covers bins few = true := by decide +kernel
  have coveredWide : covers bins wide = true := by decide +kernel
  obtain ⟨first, last, head, ends, counts⟩ := between bins succeeds
  obtain rfl : 0.0 = first := by simpa using head
  obtain rfl : 5.0 = last := by simpa using ends
  obtain ⟨-, coverage⟩ := partition checked
  refine ⟨succeeds, checked, ?_, ?_, covered, ((coverage few).1 covered).1, coveredWide,
    ((coverage wide).1 coveredWide).2⟩
  · rw [counts, if_pos (by decide +kernel)]
  · rw [counts, if_neg (by decide +kernel)]

end Bin

end StatBounds
