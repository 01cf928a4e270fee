import StatBounds.BinCount.Filter
import StatBounds.Proofs.Domain.Readings
import StatBounds.Proofs.Except
import StatBounds.Proofs.Transport.Support

/-! # Exactness of the bin count filter

The filter succeeds exactly if every item can be sent to a bin that its domain meets such that all
bins hold numbers of items within their ranges. What it then leaves of an item is what some such
assignment allows, and the ranges that it leaves for the bins are those of all such assignments. That holds of
all bins; but only a bin whose lower bound comes first is met by just the domains with a value in it.
-/

namespace StatBounds.BinCountFilter

open Binary64 (IsNumber value)
open Transportation (Placement)

/-- A bin for each item, met by its domain, such that the number of items of each bin is in its range. -/
structure Feasible (f : BinCountFilter) (items : List Domain) (counts : List (Nat × Nat))
    (bins : List Nat) : Prop where
  met : List.Forall₂ (fun b item => ∃ bin, f.bins[b]? = some bin ∧ item.meets bin.lb bin.ub = true)
    bins items
  counted : ∀ b range, counts[b]? = some range → range.1 ≤ bins.count b ∧ bins.count b ≤ range.2

/-- Some feasible assignment sends an item to a bin. -/
def Gives (f : BinCountFilter) (items : List Domain) (counts : List (Nat × Nat)) (i : Nat)
    (bin : Bin) : Prop :=
  ∃ bins b, f.Feasible items counts bins ∧ bins[i]? = some b ∧ f.bins[b]? = some bin

/-- What is to be left of a domain if a given set of bins may be given to it: the values in one of
    them, or the part of an interval in the hull of their closures. -/
def Leaves (given : Bin → Prop) : Domain → Domain → Prop
  | .finite s, .finite left =>
      ∀ v, v ∈ left.values ↔ v ∈ s.values ∧ ∃ bin, given bin ∧ bin.contains (Binary64.ofInt v) = true
  | .real r, .real left =>
      left.precision = r.precision ∧ left.interval.Proper ∧ (left.interval.isEmpty = true → left.interval = .empty) ∧
        ∀ x : EReal, left.interval.Encloses x ↔ r.interval.Encloses x ∧
          (∃ bin, given bin ∧ bin.closure.BeginsBy x) ∧ ∃ bin, given bin ∧ bin.closure.EndsFrom x
  | _, _ => False

/-- The counts with upper bounds that are no greater than the number of items. -/
def clipped (items : List Domain) (counts : List (Nat × Nat)) : List (Nat × Nat) :=
  counts.map fun (lo, hi) => (lo, min hi items.length)

section

variable {f : BinCountFilter} {items : List Domain} {counts : List (Nat × Nat)}

/-! ## The transportation problem -/

theorem mem_binsOf {item : Domain} {b : Nat} :
    b ∈ f.binsOf item ↔ ∃ bin, f.bins[b]? = some bin ∧ item.meets bin.lb bin.ub = true := by
  simp only [binsOf, List.mem_map, List.mem_filter, Prod.exists, List.mem_zipIdx_iff_getElem?]
  constructor
  · rintro ⟨bin, b, ⟨found, meets⟩, rfl⟩
    exact ⟨bin, found, meets⟩
  · rintro ⟨bin, found, meets⟩
    exact ⟨bin, b, ⟨found, meets⟩, rfl⟩

def problem (f : BinCountFilter) (items : List Domain) (counts : List (Nat × Nat))
    (lengths : counts.length = f.bins.length) : Transportation where
  allowed := items.map f.binsOf
  bounds := clipped items counts
  inRange := by
    intro bins member b chosen
    obtain ⟨item, -, rfl⟩ := List.mem_map.1 member
    obtain ⟨bin, found, -⟩ := mem_binsOf.1 chosen
    rw [clipped, List.length_map, lengths]
    exact (List.getElem?_eq_some_iff.1 found).1

variable {lengths : counts.length = f.bins.length}

theorem items_problem : (f.problem items counts lengths).items = items.length :=
  List.length_map ..

theorem bins_problem : (f.problem items counts lengths).bins = f.bins.length := by
  simp [Transportation.bins, problem, clipped, lengths]

theorem boundsOf_problem (b : Nat) :
    (f.problem items counts lengths).boundsOf b =
      ((counts.getD b (0, 0)).1, min (counts.getD b (0, 0)).2 items.length) := by
  simp only [Transportation.boundsOf, problem, clipped, List.getD_eq_getElem?_getD, List.getElem?_map]
  cases counts[b]? <;> simp

/-- Placements in the problem are the feasible assignments: an upper bound beyond the number of items is
    none. -/
theorem placement_iff {bins : List Nat} :
    Placement (f.problem items counts lengths) bins ↔ f.Feasible items counts bins := by
  have met : List.Forall₂ (fun b choices => b ∈ choices) bins (items.map f.binsOf) ↔
      List.Forall₂ (fun b item => ∃ bin, f.bins[b]? = some bin ∧ item.meets bin.lb bin.ub = true) bins items := by
    rw [List.forall₂_map_right_iff, List.forall₂_iff_zip, List.forall₂_iff_zip]
    exact and_congr_right fun _ => forall_congr' fun b => forall_congr' fun item => forall_congr' fun _ => mem_binsOf
  have counted (same : bins.length = items.length) :
      (∀ b < f.bins.length, (counts.getD b (0, 0)).1 ≤ bins.count b ∧
        bins.count b ≤ min (counts.getD b (0, 0)).2 items.length) ↔
      ∀ b range, counts[b]? = some range → range.1 ≤ bins.count b ∧ bins.count b ≤ range.2 := by
    have most (b : Nat) : bins.count b ≤ items.length := same ▸ List.count_le_length
    constructor
    · intro within b range found
      have here := within b (lengths ▸ (List.getElem?_eq_some_iff.1 found).1)
      rw [List.getD_eq_getElem?_getD, found, Option.getD_some] at here
      exact ⟨here.1, here.2.trans (min_le_left _ _)⟩
    · intro within b inside
      have found := List.getElem?_eq_getElem (lengths ▸ inside : b < counts.length)
      have here := within b _ found
      rw [List.getD_eq_getElem?_getD, found, Option.getD_some]
      exact ⟨here.1, le_min here.2 (most b)⟩
  constructor
  · rintro ⟨allowed, within⟩
    have related := met.1 allowed
    simp only [boundsOf_problem, bins_problem] at within
    exact ⟨related, (counted related.length_eq).1 within⟩
  · rintro ⟨related, within⟩
    refine ⟨met.2 related, ?_⟩
    simp only [boundsOf_problem, bins_problem]
    exact (counted related.length_eq).2 within

theorem feasible_iff :
    (f.problem items counts lengths).Feasible ↔ ∃ bins, f.Feasible items counts bins :=
  exists_congr fun _ => placement_iff

theorem map_fst_clipped (items : List Domain) (counts : List (Nat × Nat)) :
    (clipped items counts).map Prod.fst = counts.map Prod.fst := by
  simp [clipped, Function.comp_def]

theorem fits_problem (few : items.length < 2 ^ 63) (lower : (counts.map Prod.fst).sum < 2 ^ 64)
    (upper : ((clipped items counts).map Prod.snd).sum < 2 ^ 64) : (f.problem items counts lengths).Fits := by
  refine ⟨?_, upper, ?_⟩
  · rw [← map_fst_clipped items counts] at lower
    exact lower
  · intro pair member
    obtain ⟨range, -, rfl⟩ := List.mem_map.1 member
    exact lt_of_le_of_lt (min_le_right _ _) few

/-! ## What bins leave of a domain -/

/-- A hull that grows bin by bin begins with the first of all closures and ends with the last one. -/
theorem begins_ends_foldl_hull (bins : List Bin) {start : Interval} (proper : start.Proper) (x : EReal) :
    let cover := bins.foldl (fun cover bin => cover.hull bin.closure) start
    cover.Proper ∧ (cover.BeginsBy x ↔ start.BeginsBy x ∨ ∃ bin ∈ bins, bin.closure.BeginsBy x) ∧
      (cover.EndsFrom x ↔ start.EndsFrom x ∨ ∃ bin ∈ bins, bin.closure.EndsFrom x) := by
  induction bins generalizing start with
  | nil => exact ⟨proper, by simp, by simp⟩
  | cons bin rest ih =>
      obtain ⟨properCover, begins, ends⟩ := ih (Interval.proper_hull proper bin.proper_closure)
      obtain ⟨beginsHull, endsHull⟩ := Interval.begins_ends_hull proper bin.proper_closure x
      refine ⟨properCover, ?_, ?_⟩
      · rw [List.foldl_cons, begins, beginsHull, or_assoc, List.exists_mem_cons_iff]
      · rw [List.foldl_cons, ends, endsHull, or_assoc, List.exists_mem_cons_iff]

theorem encloses_cover (bins : List Bin) :
    let cover := bins.foldl (fun cover bin => cover.hull bin.closure) Interval.empty
    cover.Proper ∧ ∀ x : EReal, cover.Encloses x ↔
      (∃ bin ∈ bins, bin.closure.BeginsBy x) ∧ ∃ bin ∈ bins, bin.closure.EndsFrom x := by
  intro cover
  have grown (x : EReal) := begins_ends_foldl_hull bins Interval.proper_empty x
  have nothing : Interval.empty.isEmpty = true := by rfl
  have proper : cover.Proper := (grown 0).1
  refine ⟨proper, fun x => ?_⟩
  obtain ⟨-, begins, ends⟩ := grown x
  rw [Interval.encloses_iff_begins_ends proper, begins, ends]
  simp [Interval.BeginsBy, Interval.EndsFrom, nothing]

theorem leaves_restrictTo {item : Domain} (proper : item.Proper) (bins : List Bin) :
    Leaves (· ∈ bins) item (restrictTo bins item) := by
  cases item with
  | finite s =>
      intro v
      rw [IntSet.mem_filter, List.any_eq_true]
  | real r =>
      obtain ⟨properCover, encloses⟩ := encloses_cover bins
      refine ⟨rfl, Interval.proper_intersect proper _, Interval.intersect_eq_empty, fun x => ?_⟩
      rw [Interval.encloses_intersect_iff proper properCover, encloses]

theorem Leaves.reaches {given : Bin → Prop} {item left : Domain} (leaves : Leaves given item left)
    {bin : Bin} (proper : bin.Proper) (member : given bin) (reaches : item.Reaches bin.lb bin.ub) :
    left.Reaches bin.lb bin.ub := by
  cases item with
  | finite s =>
      cases left with
      | finite left =>
          obtain ⟨v, inside, above, below⟩ := reaches
          have contains : bin.contains (Binary64.ofInt v) = true := by
            simp [Bin.contains, above, below]
          exact ⟨v, (leaves v).2 ⟨inside, bin, member, contains⟩, above, below⟩
      | real left => exact leaves.elim
  | real r =>
      cases left with
      | finite left => exact leaves.elim
      | real left =>
          obtain ⟨x, encloses, above, below⟩ := reaches
          obtain ⟨begins, ends⟩ := (proper.has_iff.2 ⟨above, below⟩).begins_ends
          exact ⟨x, (leaves.2.2.2 x).2 ⟨encloses, ⟨bin, member, begins⟩, bin, member, ends⟩, above, below⟩

theorem Leaves.congr {given others : Bin → Prop} (same : ∀ bin, given bin ↔ others bin)
    {item left : Domain} (leaves : Leaves given item left) : Leaves others item left := by
  rwa [show others = given from funext fun bin => propext (same bin).symm]

/-! ## The steps of the filter -/

theorem allowed_eq (someBin : ∀ item ∈ items, f.binsOf item ≠ []) :
    f.allowed items = .ok (items.map f.binsOf) := by
  have all : (items.zipIdx.map fun numbered => f.binsOf numbered.1) = items.map f.binsOf := by
    change items.zipIdx.map (f.binsOf ∘ Prod.fst) = _
    rw [← List.map_map, List.zipIdx_map_fst]
  rw [← all]
  refine mapM_eq_ok_map fun numbered member => ?_
  have some := someBin numbered.1 (List.fst_mem_of_mem_zipIdx member)
  cases bins : f.binsOf numbered.1 with
  | nil => exact absurd bins some
  | cons b rest => simp only [bins]

theorem allowed_error {item : Domain} (member : item ∈ items) (noBin : f.binsOf item = []) :
    ∃ failure, f.allowed items = .error failure := by
  obtain ⟨i, inside, rfl⟩ := List.getElem_of_mem member
  have numbered : (items[i], i) ∈ items.zipIdx :=
    List.mem_zipIdx_iff_getElem?.2 (List.getElem?_eq_getElem inside)
  refine mapM_eq_error numbered (e := .error (.itemInNoBin i)) ?_
  simp only [noBin]

/-- The check of the capacity succeeds iff no sum is too large for a word and the number of items is
    between the sums. -/
theorem checkCapacity_eq_ok {count : Nat} {bounds : List (Nat × Nat)} :
    checkCapacity count bounds = .ok () ↔
      (bounds.map Prod.fst).sum < 2 ^ 64 ∧ (bounds.map Prod.snd).sum < 2 ^ 64 ∧
        (bounds.map Prod.fst).sum ≤ count ∧ count ≤ (bounds.map Prod.snd).sum := by
  unfold checkCapacity Transportation.countSum
  by_cases lower : (bounds.map Prod.fst).sum < 2 ^ 64
  · by_cases upper : (bounds.map Prod.snd).sum < 2 ^ 64
    · rw [if_pos lower, if_pos upper]
      simp only [orFault, ok_bind, lower, upper, true_and]
      by_cases low : (bounds.map Prod.fst).sum > count
      · rw [if_pos low, throw_eq_error, error_bind]
        simp [Nat.not_le.2 low]
      · by_cases high : (bounds.map Prod.snd).sum < count
        · simp [low, high, Nat.not_le.2 high]
        · simp [low, high, Nat.not_lt.1 low, Nat.not_lt.1 high]
    · rw [if_pos lower, if_neg upper, orFault, ok_bind, orFault, error_bind]
      simp only [reduceCtorEq, false_iff]
      exact fun fits => upper fits.2.1
  · rw [if_neg lower, orFault, error_bind]
    simp only [reduceCtorEq, false_iff]
    exact fun fits => lower fits.1

theorem ofLists_eq (lengths : counts.length = f.bins.length) :
    Transportation.ofLists (items.map f.binsOf) (clipped items counts) =
      .ok (f.problem items counts lengths) :=
  dif_pos (f.problem items counts lengths).inRange

open Classical in
/-- The bins that some feasible assignment gives to an item, in order. -/
noncomputable def givenTo (f : BinCountFilter) (items : List Domain) (counts : List (Nat × Nat)) (i : Nat) :
    List Bin :=
  (f.bins.zipIdx.filter fun numbered =>
    decide (∃ bins, f.Feasible items counts bins ∧ bins[i]? = some numbered.2)).map Prod.fst

theorem mem_givenTo {i : Nat} {bin : Bin} : bin ∈ f.givenTo items counts i ↔ f.Gives items counts i bin := by
  simp only [givenTo, List.mem_map, List.mem_filter, decide_eq_true_eq, Prod.exists,
    List.mem_zipIdx_iff_getElem?]
  constructor
  · rintro ⟨bin, b, ⟨found, bins, feasible, chosen⟩, rfl⟩
    exact ⟨bins, b, feasible, chosen, found⟩
  · rintro ⟨bins, b, feasible, chosen, found⟩
    exact ⟨bin, b, ⟨found, bins, feasible, chosen⟩, rfl⟩

theorem supported_eq (fits : (f.problem items counts lengths).Fits) {i : Nat} (inside : i < items.length) :
    f.supported (f.problem items counts lengths) i = .ok (f.givenTo items counts i) := by
  classical
  have decides : ∀ numbered ∈ f.bins.zipIdx,
      (f.problem items counts lengths).supports i numbered.2 =
        .ok (decide (∃ bins, f.Feasible items counts bins ∧ bins[i]? = some numbered.2)) := by
    rintro ⟨bin, b⟩ member
    have found := List.mem_zipIdx_iff_getElem?.1 member
    have binInside : b < (f.problem items counts lengths).bins := by
      rw [bins_problem]
      exact (List.getElem?_eq_some_iff.1 found).1
    obtain ⟨answer, decided, supports⟩ :=
      Transportation.supports_spec fits (items_problem.symm ▸ inside) binInside
    simp only [placement_iff] at supports
    rw [decided, Bool.eq_iff_iff.2 (supports.trans (decide_eq_true_iff).symm)]
  rw [supported, filterM_eq_ok decides, ok_bind, pure_eq_ok]
  rfl

/-! ## Exactness -/

theorem Feasible.exists_met {bins : List Nat} (feasible : f.Feasible items counts bins) {i : Nat}
    {item : Domain} (found : items[i]? = some item) :
    ∃ (b : Nat) (bin : Bin), f.bins[b]? = some bin ∧ item.meets bin.lb bin.ub = true := by
  obtain ⟨inside, rfl⟩ := List.getElem?_eq_some_iff.1 found
  exact ⟨_, feasible.met.get (feasible.met.length_eq ▸ inside) inside⟩

theorem Feasible.someBin {bins : List Nat} (feasible : f.Feasible items counts bins) :
    ∀ item ∈ items, f.binsOf item ≠ [] := by
  intro item member
  obtain ⟨i, found⟩ := List.mem_iff_getElem?.1 member
  obtain ⟨b, meets⟩ := feasible.exists_met found
  exact List.ne_nil_of_mem (mem_binsOf.2 meets)

/-- There are enough items for the least counts of all bins. -/
theorem Feasible.lower_le {bins : List Nat} (feasible : f.Feasible items counts bins)
    (lengths : counts.length = f.bins.length) : (counts.map Prod.fst).sum ≤ items.length := by
  have low := (placement_iff.2 feasible : Placement (f.problem items counts lengths) bins).lower_le
  rw [items_problem] at low
  exact map_fst_clipped items counts ▸ low

theorem checkCapacity_of_feasible (lengths : counts.length = f.bins.length)
    (lower : (counts.map Prod.fst).sum < 2 ^ 64)
    (upper : ((clipped items counts).map Prod.snd).sum < 2 ^ 64) {bins : List Nat}
    (feasible : f.Feasible items counts bins) :
    checkCapacity items.length (clipped items counts) = .ok () := by
  have placement : Placement (f.problem items counts lengths) bins := placement_iff.2 feasible
  have low := placement.lower_le
  have high := placement.le_upper
  rw [items_problem] at low high
  rw [← map_fst_clipped items counts] at lower
  exact checkCapacity_eq_ok.2 ⟨lower, upper, low, high⟩

/-- What the filter is to leave of the items and of the count ranges. -/
structure Exact (f : BinCountFilter) (items : List Domain) (counts : List (Nat × Nat))
    (out : Filtered) : Prop where
  sameItems : out.items.length = items.length
  sameCounts : out.counts.length = counts.length
  leaves : ∀ i item left, items[i]? = some item → out.items[i]? = some left →
    Leaves (f.Gives items counts i) item left
  least : ∀ b range, out.counts[b]? = some range →
    IsLeast {count | ∃ bins, f.Feasible items counts bins ∧ bins.count b = count} range.1
  greatest : ∀ b range, out.counts[b]? = some range →
    IsGreatest {count | ∃ bins, f.Feasible items counts bins ∧ bins.count b = count} range.2

def leftOf (f : BinCountFilter) (problem : Transportation) (numbered : Domain × Nat) :
    Except Failure Domain := do
  return restrictTo (← orFault (f.supported problem numbered.2)) numbered.1

/-- The range of one bin, which every bin of a feasible problem has. -/
def rangeOf (problem : Transportation) (b : Nat) : Except Failure (Nat × Nat) := do
  match ← orFault (problem.countRange b) with
  | some range => return range
  | none => throw (.error (.binWithoutCount b))

theorem filter_eq (lengths : counts.length = f.bins.length)
    (someBin : ∀ item ∈ items, f.binsOf item ≠ []) :
    f.filter items counts = (do
      let _ ← checkCapacity items.length (clipped items counts)
      if !(← orFault (f.problem items counts lengths).isFeasible) then
        throw (.error .noAssignment)
      let left ← items.zipIdx.mapM (f.leftOf (f.problem items counts lengths))
      let ranges ← (List.range f.bins.length).mapM (rangeOf (f.problem items counts lengths))
      return { items := left, counts := ranges }) := by
  rw [filter, if_neg (not_not.2 lengths), allowed_eq someBin]
  simp only [pure_eq_ok, ok_bind]
  change (do
    let _ ← checkCapacity items.length (clipped items counts)
    let problem ← orFault (Transportation.ofLists (items.map f.binsOf) (clipped items counts))
    if !(← orFault problem.isFeasible) then
      throw (.error .noAssignment)
    let left ← items.zipIdx.mapM (f.leftOf problem)
    let ranges ← (List.range f.bins.length).mapM (rangeOf problem)
    return { items := left, counts := ranges } : Except Failure Filtered) = _
  rw [ofLists_eq lengths]
  rfl

theorem filter_of_capacity (lengths : counts.length = f.bins.length)
    (someBin : ∀ item ∈ items, f.binsOf item ≠ [])
    (capacity : checkCapacity items.length (clipped items counts) = .ok ()) {answer : Bool}
    (decided : (f.problem items counts lengths).isFeasible = .ok answer) :
    f.filter items counts =
      if answer = true then do
        let left ← items.zipIdx.mapM (f.leftOf (f.problem items counts lengths))
        let ranges ← (List.range f.bins.length).mapM (rangeOf (f.problem items counts lengths))
        return { items := left, counts := ranges }
      else .error (.error .noAssignment) := by
  rw [filter_eq lengths someBin, capacity, decided]
  simp only [ok_bind, orFault]
  cases answer <;> rfl

theorem leftOf_eq (fits : (f.problem items counts lengths).Fits) {i : Nat} {item : Domain}
    (found : items[i]? = some item) :
    f.leftOf (f.problem items counts lengths) (item, i) = .ok (restrictTo (f.givenTo items counts i) item) := by
  have inside := (List.getElem?_eq_some_iff.1 found).1
  simp only [leftOf, supported_eq fits inside, orFault, ok_bind, pure_eq_ok]

theorem leftOf_spec (fits : (f.problem items counts lengths).Fits) {i : Nat} {item : Domain}
    (proper : item.Proper) (found : items[i]? = some item) :
    ∃ left, f.leftOf (f.problem items counts lengths) (item, i) = .ok left ∧
      Leaves (f.Gives items counts i) item left := by
  refine ⟨restrictTo (f.givenTo items counts i) item, leftOf_eq fits found, ?_⟩
  exact (leaves_restrictTo proper _).congr fun _ => mem_givenTo

theorem rangeOf_spec (few : items.length < 2 ^ 63)
    (fits : (f.problem items counts lengths).Fits) {bins : List Nat}
    (feasible : f.Feasible items counts bins) {b : Nat} (inside : b < f.bins.length) :
    ∃ range, rangeOf (f.problem items counts lengths) b = .ok range ∧
      IsLeast {count | ∃ bins, f.Feasible items counts bins ∧ bins.count b = count} range.1 ∧
      IsGreatest {count | ∃ bins, f.Feasible items counts bins ∧ bins.count b = count} range.2 := by
  obtain ⟨fewest, most, same, least, greatest⟩ := Transportation.countRange_spec fits
    (items_problem.symm ▸ few) (feasible_iff.2 ⟨bins, feasible⟩) (bins_problem.symm ▸ inside)
  simp only [placement_iff] at least greatest
  refine ⟨(fewest, most), ?_, least, greatest⟩
  simp only [rangeOf, same, orFault, ok_bind, pure_eq_ok]

/-- The filter succeeds if there is a feasible assignment, and is exact then. -/
theorem filter_of_feasible (lengths : counts.length = f.bins.length) (few : items.length < 2 ^ 63)
    (lower : (counts.map Prod.fst).sum < 2 ^ 64)
    (upper : ((clipped items counts).map Prod.snd).sum < 2 ^ 64) {bins : List Nat}
    (feasible : f.Feasible items counts bins) :
    ∃ out, f.filter items counts = .ok out ∧ f.Exact items counts out := by
  have someBin := feasible.someBin
  have fits : (f.problem items counts lengths).Fits := fits_problem few lower upper
  obtain ⟨answer, decided, isFeasible⟩ := Transportation.isFeasible_spec fits
  obtain rfl : answer = true := isFeasible.2 (feasible_iff.2 ⟨bins, feasible⟩)
  have leaves (i : Nat) (item : Domain) (found : items[i]? = some item) :=
    have ⟨_, _, _, meets⟩ := feasible.exists_met found
    leftOf_spec fits (Domain.proper_of_meets meets) found
  have ranges (b : Nat) (inside : b < f.bins.length) := rangeOf_spec few fits feasible inside
  obtain ⟨left, leftEq⟩ : ∃ left, items.zipIdx.mapM (f.leftOf (f.problem items counts lengths)) = .ok left :=
    exists_mapM_eq_ok fun ⟨item, i⟩ member =>
      (leaves i item (List.mem_zipIdx_iff_getElem?.1 member)).imp fun _ both => both.1
  obtain ⟨range, rangeEq⟩ : ∃ range, (List.range f.bins.length).mapM
      (rangeOf (f.problem items counts lengths)) = .ok range :=
    exists_mapM_eq_ok fun b member => (ranges b (List.mem_range.1 member)).imp fun _ both => both.1
  refine ⟨{ items := left, counts := range }, ?_, ?_⟩
  · rw [filter_of_capacity lengths someBin (checkCapacity_of_feasible lengths lower upper feasible) decided,
      if_pos rfl, leftEq, ok_bind, rangeEq, ok_bind, pure_eq_ok]
  · have sameItems : left.length = items.length := by
      simpa using length_of_mapM leftEq
    have sameCounts : range.length = f.bins.length := by
      simpa using length_of_mapM rangeEq
    have leavesAt (i : Nat) (item rest : Domain) (found : items[i]? = some item)
        (output : left[i]? = some rest) : Leaves (f.Gives items counts i) item rest := by
      obtain ⟨_, same, leaves⟩ := leaves i item found
      have numbered : items.zipIdx[i]? = some (item, i) := by
        simp [List.getElem?_zipIdx, found]
      obtain rfl := Except.ok.inj (same.symm.trans (getElem?_of_mapM leftEq numbered output))
      exact leaves
    have rangeAt (b : Nat) (bounds : Nat × Nat) (output : range[b]? = some bounds) :
        IsLeast {count | ∃ bins, f.Feasible items counts bins ∧ bins.count b = count} bounds.1 ∧
          IsGreatest {count | ∃ bins, f.Feasible items counts bins ∧ bins.count b = count} bounds.2 := by
      have inside : b < f.bins.length := sameCounts ▸ (List.getElem?_eq_some_iff.1 output).1
      obtain ⟨_, same, extremes⟩ := ranges b inside
      have listed : (List.range f.bins.length)[b]? = some b := List.getElem?_range inside
      obtain rfl := Except.ok.inj (same.symm.trans (getElem?_of_mapM rangeEq listed output))
      exact extremes
    exact ⟨sameItems, sameCounts.trans lengths.symm, leavesAt, fun b bounds output =>
      (rangeAt b bounds output).1, fun b bounds output => (rangeAt b bounds output).2⟩

/-- The filter fails if the sum of the upper bounds is too large for a word. -/
theorem filter_of_overflow (lengths : counts.length = f.bins.length) (few : items.length < 2 ^ 63)
    {bins : List Nat} (feasible : f.Feasible items counts bins)
    (upper : 2 ^ 64 ≤ ((clipped items counts).map Prod.snd).sum) :
    f.filter items counts = .error (.fault .overflow) := by
  have lower : (counts.map Prod.fst).sum < 2 ^ 64 := (feasible.lower_le lengths).trans_lt (by omega)
  have fails : checkCapacity items.length (clipped items counts) = .error (.fault .overflow) := by
    unfold checkCapacity Transportation.countSum
    rw [map_fst_clipped, if_pos lower, if_neg (not_lt.2 upper)]
    rfl
  rw [filter_eq lengths feasible.someBin, fails]
  rfl

/-- With a feasible assignment the filter fails only for lists of different lengths, or for upper bounds
    whose sum is too large for a word. -/
theorem filter_cases_of_feasible (few : items.length < 2 ^ 63) {bins : List Nat}
    (feasible : f.Feasible items counts bins) :
    (∃ out, f.filter items counts = .ok out ∧ f.Exact items counts out) ∨
      f.filter items counts = .error (.error (.countRanges f.bins.length counts.length)) ∨
      f.filter items counts = .error (.fault .overflow) := by
  by_cases lengths : counts.length = f.bins.length
  · have lower : (counts.map Prod.fst).sum < 2 ^ 64 := (feasible.lower_le lengths).trans_lt (by omega)
    by_cases upper : ((clipped items counts).map Prod.snd).sum < 2 ^ 64
    · exact .inl (filter_of_feasible lengths few lower upper feasible)
    · exact .inr (.inr (filter_of_overflow lengths few feasible (not_lt.1 upper)))
  · refine .inr (.inl ?_)
    rw [filter, if_pos lengths]
    rfl

theorem feasible_of_filter (lengths : counts.length = f.bins.length) (few : items.length < 2 ^ 63) {out : Filtered}
    (succeeds : f.filter items counts = .ok out) :
    ((clipped items counts).map Prod.snd).sum < 2 ^ 64 ∧ ∃ bins, f.Feasible items counts bins := by
  by_cases someBin : ∀ item ∈ items, f.binsOf item ≠ []
  · cases checked : checkCapacity items.length (clipped items counts) with
    | error failure =>
        rw [filter_eq lengths someBin, checked] at succeeds
        simp at succeeds
    | ok =>
        obtain ⟨lower, upper, -, -⟩ := checkCapacity_eq_ok.1 checked
        rw [map_fst_clipped] at lower
        have fits : (f.problem items counts lengths).Fits := fits_problem few lower upper
        obtain ⟨answer, decided, isFeasible⟩ := Transportation.isFeasible_spec fits
        rw [filter_of_capacity lengths someBin checked decided] at succeeds
        cases answer with
        | true => exact ⟨upper, feasible_iff.1 (isFeasible.1 rfl)⟩
        | false => simp at succeeds
  · push Not at someBin
    obtain ⟨item, member, noBin⟩ := someBin
    obtain ⟨failure, fails⟩ := allowed_error member noBin
    rw [filter, if_neg (not_not.2 lengths), fails] at succeeds
    simp at succeeds

theorem lengths_of_filter {out : Filtered} (succeeds : f.filter items counts = .ok out) :
    counts.length = f.bins.length := by
  by_contra other
  simp [filter, other] at succeeds

/-- A filter that succeeds is exact, and has found an assignment. -/
theorem exact_of_filter (few : items.length < 2 ^ 63) {out : Filtered} (succeeds : f.filter items counts = .ok out) :
    f.Exact items counts out ∧ ∃ bins, f.Feasible items counts bins := by
  obtain ⟨-, bins, feasible⟩ := feasible_of_filter (lengths_of_filter succeeds) few succeeds
  refine ⟨?_, bins, feasible⟩
  rcases filter_cases_of_feasible few feasible with ⟨other, same, exact⟩ | same | same
  · obtain rfl : other = out := Except.ok.inj (same.symm.trans succeeds)
    exact exact
  · rw [same] at succeeds
    simp at succeeds
  · rw [same] at succeeds
    simp at succeeds

/-- An item that is sent to a bin by a feasible assignment still meets it, if the lower bound of the bin comes first. -/
theorem Exact.meets {out : Filtered} (exact : f.Exact items counts out) (proper : ∀ bin ∈ f.bins, bin.Proper)
    {bins : List Nat} (feasible : f.Feasible items counts bins) {i : Nat} (inside : i < out.items.length) :
    ∃ b bin, bins[i]? = some b ∧ f.bins[b]? = some bin ∧ out.items[i].meets bin.lb bin.ub = true := by
  have itemInside : i < items.length := exact.sameItems ▸ inside
  have binInside : i < bins.length := feasible.met.length_eq ▸ itemInside
  obtain ⟨bin, found, meets⟩ := feasible.met.get binInside itemInside
  have properBin := proper bin (List.mem_of_getElem? found)
  have leaves := exact.leaves i _ _ (List.getElem?_eq_getElem itemInside) (List.getElem?_eq_getElem inside)
  refine ⟨_, bin, List.getElem?_eq_getElem binInside, found, (Domain.meets_iff_reaches properBin).2 ?_⟩
  exact leaves.reaches properBin ⟨bins, _, feasible, List.getElem?_eq_getElem binInside, found⟩
    ((Domain.meets_iff_reaches properBin).1 meets)

/-- Something is left of every item. -/
theorem Exact.notEmpty {out : Filtered} (exact : f.Exact items counts out) (proper : ∀ bin ∈ f.bins, bin.Proper)
    {bins : List Nat} (feasible : f.Feasible items counts bins) : ∀ left ∈ out.items, left.isEmpty = false := by
  intro left member
  obtain ⟨i, inside, rfl⟩ := List.getElem_of_mem member
  obtain ⟨_, bin, -, found, meets⟩ := exact.meets proper feasible inside
  exact ((Domain.meets_iff_reaches (proper bin (List.mem_of_getElem? found))).1 meets).notEmpty

end

/-- Let the lower bound of every bin come first, so that the bins a domain meets are those with a value of it. The filter
    succeeds exactly if there is a feasible assignment, as long as the sum of the clipped upper bounds fits in a word,
    and what it leaves is then exact and not empty. -/
theorem filter_exact (f : BinCountFilter) (items : List Domain) (counts : List (Nat × Nat))
    (proper : ∀ bin ∈ f.bins, bin.Proper) (lengths : counts.length = f.bins.length) (few : items.length < 2 ^ 63)
    (lower : (counts.map Prod.fst).sum < 2 ^ 64) :
    (∀ item ∈ items, ∀ bin ∈ f.bins, item.meets bin.lb bin.ub = true ↔ item.Reaches bin.lb bin.ub) ∧
    ((∃ out, f.filter items counts = .ok out) ↔
      ((clipped items counts).map Prod.snd).sum < 2 ^ 64 ∧ ∃ bins, f.Feasible items counts bins) ∧
    ∀ out, f.filter items counts = .ok out → f.Exact items counts out ∧ ∀ left ∈ out.items, left.isEmpty = false := by
  refine ⟨fun item _ bin member => Domain.meets_iff_reaches (proper bin member), ⟨?_, ?_⟩, fun out succeeds => ?_⟩
  · rintro ⟨out, succeeds⟩
    exact feasible_of_filter lengths few succeeds
  · rintro ⟨upper, bins, feasible⟩
    exact (filter_of_feasible lengths few lower upper feasible).imp fun _ both => both.1
  · obtain ⟨exact, bins, feasible⟩ := exact_of_filter few succeeds
    exact ⟨exact, exact.notEmpty proper feasible⟩

/-- Two bins, an item that is 1 or 5, and one anywhere in the lower half of the first bin. -/
theorem filter_exact_two_items :
    let f : BinCountFilter := { bins := [⟨1.0, 3.0⟩, ⟨3.0, 4.0⟩] }
    let items := [Domain.finite ⟨[1, 5], by decide⟩, .real { interval := ⟨1.0, 2.0⟩, precision := 0.5 }]
    ∃ out, f.filter items [(1, 2), (0, 1)] = .ok out ∧ f.Exact items [(1, 2), (0, 1)] out := by
  intro f items
  have feasible : f.Feasible items [(1, 2), (0, 1)] [0, 0] := by
    refine ⟨.cons ⟨_, rfl, by decide⟩ (.cons ⟨_, rfl, by decide⟩ .nil), ?_⟩
    · intro b range found
      match b with
      | 0 => obtain rfl := Option.some.inj found; decide
      | 1 => obtain rfl := Option.some.inj found; decide
  obtain ⟨-, succeeds, exact⟩ := filter_exact f items [(1, 2), (0, 1)] (by decide) rfl (by decide) (by decide)
  obtain ⟨out, same⟩ := succeeds.2 ⟨by decide, [0, 0], feasible⟩
  exact ⟨out, same, (exact out same).1⟩

/-- A bin with its bounds the wrong way round is taken for one that an interval around it meets, so the filter finds an
    assignment, although no number lies in the bin and nothing is left of the item. -/
theorem filter_empties_item_of_reversed_bin :
    let f : BinCountFilter := { bins := [⟨20.0, 2.0⟩] }
    let item := Domain.real { interval := ⟨1.0, 30.0⟩, precision := 0.5 }
    let left := Domain.real { interval := .empty, precision := 0.5 }
    ofBins f.bins = .ok f ∧ f.filter [item] [(1, 1)] = .ok ⟨[left], [(1, 1)]⟩ ∧ left.isEmpty = true ∧
      ¬ item.Reaches 20.0 2.0 := by
  refine ⟨by decide, by decide +kernel, by decide, ?_⟩
  rintro ⟨x, -, above, below⟩
  have order : Binary64.value 2.0 < Binary64.value 20.0 := (Binary64.lt_iff.1 (by decide)).2.2
  exact absurd (above.trans_lt below) order.asymm

end StatBounds.BinCountFilter
