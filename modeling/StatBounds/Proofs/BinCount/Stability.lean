import StatBounds.Proofs.Propagation.MonotoneCounts

/-! # Filtering once is enough

The filter leaves a part of every item and of every range, and more of larger ones. A real item is cut to a closed
interval, which may touch a bin that has been ruled out for it. That bin is allowed again when the filter runs a second
time, but it is ruled out again: the assignments that are feasible for what is left are those that were feasible before.
So the second run leaves everything as it is. That takes bins whose lower bounds come first: nothing is left of an item
in a bin the other way round, and the second run fails.
-/

namespace StatBounds

open Binary64 (larger smaller)

/-! ## Cutting twice -/

theorem Binary64.larger_larger (x y : Float) : larger (larger x y) y = larger x y := by
  rw [larger]
  split_ifs with less
  · rw [larger]
    split_ifs
    · rfl
    · rw [larger] at less
      simp_all
  · rfl

theorem Binary64.smaller_smaller (x y : Float) : smaller (smaller x y) y = smaller x y := by
  rw [smaller]
  split_ifs with less
  · rw [smaller]
    split_ifs
    · rfl
    · rw [smaller] at less
      simp_all
  · rfl

theorem Interval.intersect_intersect (i j : Interval) : (i.intersect j).intersect j = i.intersect j := by
  let meet : Interval := { lo := larger i.lo j.lo, hi := smaller i.hi j.hi }
  have nothing (k : Interval) : empty.intersect k = empty := if_pos (by rfl)
  by_cases none : (i.isEmpty || j.isEmpty) = true
  · have gone : i.intersect j = empty := if_pos none
    rw [gone, nothing]
  · by_cases apart : meet.isEmpty = true
    · have gone : i.intersect j = empty := (if_neg none).trans (if_pos apart)
      rw [gone, nothing]
    · have met : i.intersect j = meet := (if_neg none).trans (if_neg apart)
      rw [Bool.or_eq_true, not_or] at none
      have again : { lo := larger meet.lo j.lo, hi := smaller meet.hi j.hi : Interval } = meet := by
        rw [mk.injEq]
        exact ⟨Binary64.larger_larger _ _, Binary64.smaller_smaller _ _⟩
      rw [met]
      refine (if_neg (by simp [apart, none.2])).trans ?_
      rw [again]
      exact if_neg apart

namespace BinCountFilter

variable {f : BinCountFilter} {items items' : List Domain} {counts counts' : List (Nat × Nat)} {out : Filtered}

theorem restrictTo_restrictTo (bins : List Bin) (item : Domain) :
    restrictTo bins (restrictTo bins item) = restrictTo bins item := by
  cases item with
  | finite s => simp [restrictTo, IntSet.filter]
  | real r => simp only [restrictTo, Interval.intersect_intersect]

/-! ## What is left of an item -/

theorem left_of_filter (few : items.length < 2 ^ 63) (succeeds : f.filter items counts = .ok out) {i : Nat}
    {item left : Domain} (input : items[i]? = some item) (output : out.items[i]? = some left) :
    left = restrictTo (f.givenTo items counts i) item := by
  have lengths := lengths_of_filter succeeds
  obtain ⟨upper, bins, feasible⟩ := feasible_of_filter lengths few succeeds
  have lower : (counts.map Prod.fst).sum < 2 ^ 64 := (feasible.lower_le lengths).trans_lt (by omega)
  have fits : (f.problem items counts lengths).Fits := fits_problem few lower upper
  obtain ⟨answer, decided, isFeasible⟩ := Transportation.isFeasible_spec fits
  obtain rfl : answer = true := isFeasible.2 (feasible_iff.2 ⟨bins, feasible⟩)
  have capacity := checkCapacity_of_feasible lengths lower upper feasible
  rw [filter_of_capacity lengths feasible.someBin capacity decided, if_pos rfl] at succeeds
  obtain ⟨lefts, leftsEq, rest⟩ := bind_eq_ok.1 succeeds
  obtain ⟨ranges, -, same⟩ := bind_eq_ok.1 rest
  obtain rfl := Except.ok.inj same
  have numbered : items.zipIdx[i]? = some (item, i) := by
    simp [List.getElem?_zipIdx, input]
  have made := getElem?_of_mapM leftsEq numbered output
  exact Except.ok.inj (made.symm.trans (leftOf_eq fits input))

/-! ## The same assignments -/

/-- The ranges that are left lie inside those that were given, and are no larger than the number of items. -/
theorem Exact.ranges_inside (exact : f.Exact items counts out) :
    List.Forall₂ RangeInside out.counts (clipped items counts) := by
  refine List.forall₂_iff_get.2 ⟨by rw [exact.sameCounts, clipped, List.length_map], fun b small small' => ?_⟩
  have found := List.getElem?_eq_getElem (exact.sameCounts ▸ small : b < counts.length)
  obtain ⟨bins, feasible, fewest⟩ := (exact.least b _ (List.getElem?_eq_getElem small)).1
  obtain ⟨bins', feasible', most⟩ := (exact.greatest b _ (List.getElem?_eq_getElem small)).1
  have all : bins'.count b ≤ items.length := feasible'.met.length_eq ▸ List.count_le_length
  simp only [clipped, List.get_eq_getElem, List.getElem_map]
  exact ⟨fewest ▸ (feasible.counted b _ found).1, most ▸ le_min (feasible'.counted b _ found).2 all⟩

theorem rangeInside_clipped (items : List Domain) (counts : List (Nat × Nat)) :
    List.Forall₂ RangeInside (clipped items counts) counts := by
  rw [clipped, List.forall₂_map_left_iff, List.forall₂_same]
  exact fun range _ => ⟨le_rfl, min_le_left _ _⟩

theorem Exact.items_inside (exact : f.Exact items counts out) (proper : ∀ item ∈ items, item.Proper) :
    List.Forall₂ Domain.Inside out.items items := by
  refine List.forall₂_iff_get.2 ⟨exact.sameItems, fun i small small' => ?_⟩
  exact (exact.leaves i _ _ (List.getElem?_eq_getElem small') (List.getElem?_eq_getElem small)).inside_self
    (proper _ (List.getElem_mem small'))

theorem Feasible.proper {bins : List Nat} (feasible : f.Feasible items counts bins) :
    ∀ item ∈ items, item.Proper := by
  intro item member
  obtain ⟨i, found⟩ := List.mem_iff_getElem?.1 member
  obtain ⟨_, _, -, meets⟩ := feasible.exists_met found
  exact Domain.proper_of_meets meets

/-- The assignments that are feasible for what is left are those that were feasible before: an item still meets
    every bin that one of them gives to it. -/
theorem Exact.feasible_iff (exact : f.Exact items counts out) (proper : ∀ bin ∈ f.bins, bin.Proper)
    (properItems : ∀ item ∈ items, item.Proper) {bins : List Nat} :
    f.Feasible out.items out.counts bins ↔ f.Feasible items counts bins := by
  constructor
  · intro feasible
    have clippedFeasible : f.Feasible items (clipped items counts) bins :=
      feasible.mono ((exact.items_inside properItems).imp fun _ _ => Domain.Inside.subset) exact.ranges_inside
    have same : List.Forall₂ Domain.Subset items items := List.forall₂_same.2 fun item _ => .refl item
    exact clippedFeasible.mono same (rangeInside_clipped items counts)
  · intro feasible
    have lengths := feasible.met.length_eq
    refine ⟨List.forall₂_iff_get.2 ⟨lengths.trans exact.sameItems.symm, fun i small small' => ?_⟩,
      fun b range found => ?_⟩
    · obtain ⟨b, bin, chosen, found, meets⟩ := exact.meets proper feasible small'
      obtain rfl := Option.some.inj ((List.getElem?_eq_getElem small).symm.trans chosen)
      exact ⟨bin, found, meets⟩
    · exact ⟨(exact.least b range found).2 ⟨bins, feasible, rfl⟩,
        (exact.greatest b range found).2 ⟨bins, feasible, rfl⟩⟩

theorem Exact.givenTo_eq (exact : f.Exact items counts out) (proper : ∀ bin ∈ f.bins, bin.Proper)
    (properItems : ∀ item ∈ items, item.Proper) (i : Nat) : f.givenTo out.items out.counts i = f.givenTo items counts i := by
  classical
  rw [givenTo, givenTo]
  refine congrArg (List.map Prod.fst) (List.filter_congr fun numbered _ => ?_)
  rw [decide_eq_decide]
  simp only [exact.feasible_iff proper properItems]

theorem sum_snd_le {ranges ranges' : List (Nat × Nat)} (inside : List.Forall₂ RangeInside ranges ranges') :
    (ranges.map Prod.snd).sum ≤ (ranges'.map Prod.snd).sum := by
  induction inside with
  | nil => exact le_rfl
  | cons first _ ih => exact Nat.add_le_add first.2 ih

/-- A second run of the filter leaves everything as the first one left it. -/
theorem filter_again (proper : ∀ bin ∈ f.bins, bin.Proper) (few : items.length < 2 ^ 63) (succeeds : f.filter items counts = .ok out) :
    f.filter out.items out.counts = .ok out := by
  obtain ⟨exact, bins, feasible⟩ := exact_of_filter few succeeds
  have properItems := feasible.proper
  have still := (exact.feasible_iff proper properItems).2 feasible
  have lengths : out.counts.length = f.bins.length := exact.sameCounts.trans (lengths_of_filter succeeds)
  have few' : out.items.length < 2 ^ 63 := exact.sameItems ▸ few
  have upper : ((clipped out.items out.counts).map Prod.snd).sum < 2 ^ 64 :=
    ((sum_snd_le (rangeInside_clipped _ _)).trans (sum_snd_le exact.ranges_inside)).trans_lt
      (feasible_of_filter (lengths_of_filter succeeds) few succeeds).1
  obtain ⟨again, same, exact'⟩ :=
    filter_of_feasible lengths few' ((still.lower_le lengths).trans_lt (by omega)) upper still
  have items_eq : again.items = out.items := by
    refine List.ext_getElem exact'.sameItems fun i small small' => ?_
    have inside : i < items.length := exact.sameItems ▸ small'
    have first := left_of_filter few succeeds (List.getElem?_eq_getElem inside) (List.getElem?_eq_getElem small')
    have second := left_of_filter few' same (List.getElem?_eq_getElem small') (List.getElem?_eq_getElem small)
    rw [second, exact.givenTo_eq proper properItems, first, restrictTo_restrictTo]
  have counts_eq : again.counts = out.counts := by
    refine List.ext_getElem exact'.sameCounts fun b small small' => ?_
    have least := exact'.least b _ (List.getElem?_eq_getElem small)
    have greatest := exact'.greatest b _ (List.getElem?_eq_getElem small)
    simp only [exact.feasible_iff proper properItems] at least greatest
    exact Prod.ext (least.unique (exact.least b _ (List.getElem?_eq_getElem small')))
      (greatest.unique (exact.greatest b _ (List.getElem?_eq_getElem small')))
  obtain ⟨left, ranges⟩ := again
  obtain rfl : left = out.items := items_eq
  obtain rfl : ranges = out.counts := counts_eq
  exact same

/-- What a filter that succeeds leaves lies inside what it was given, a second run leaves that as it is, and larger
    items and ranges are left larger, unless the greatest counts, of which none is taken larger than the number of
    items, cannot be added in a machine word. The lower bound of every bin comes first. -/
theorem filter_stable (f : BinCountFilter) (items : List Domain) (counts : List (Nat × Nat)) (out : Filtered)
    (proper : ∀ bin ∈ f.bins, bin.Proper) (few : items.length < 2 ^ 63) (succeeds : f.filter items counts = .ok out) :
    (List.Forall₂ Domain.Inside out.items items ∧ List.Forall₂ RangeInside out.counts (clipped items counts)) ∧
    f.filter out.items out.counts = .ok out ∧
    ∀ items' counts', List.Forall₂ Domain.Subset items items' → List.Forall₂ RangeInside counts counts' →
      (∃ out', f.filter items' counts' = .ok out' ∧ List.Forall₂ Domain.Subset out.items out'.items ∧
        List.Forall₂ RangeInside out.counts out'.counts) ∨
      (2 ^ 64 ≤ ((clipped items' counts').map Prod.snd).sum ∧
        f.filter items' counts' = .error (.fault .overflow)) := by
  obtain ⟨exact, bins, feasible⟩ := exact_of_filter few succeeds
  refine ⟨⟨exact.items_inside feasible.proper, exact.ranges_inside⟩, filter_again proper few succeeds,
    fun items' counts' subsets ranges => ?_⟩
  have few' : items'.length < 2 ^ 63 := subsets.length_eq ▸ few
  have feasible' := feasible.mono subsets ranges
  have lengths : counts'.length = f.bins.length := ranges.length_eq ▸ lengths_of_filter succeeds
  by_cases upper : ((clipped items' counts').map Prod.snd).sum < 2 ^ 64
  · have lower := (feasible'.lower_le lengths).trans_lt (few'.trans (by norm_num : 2 ^ 63 < 2 ^ 64))
    obtain ⟨out', same, exact'⟩ := filter_of_feasible lengths few' lower upper feasible'
    refine .inl ⟨out', same, ?_, exact.ranges_mono exact' subsets ranges⟩
    refine exact.items_mono exact' subsets ranges fun i d e left left' input input' leaves leaves' more => ?_
    obtain ⟨small, rfl⟩ := List.getElem?_eq_some_iff.1 input
    obtain ⟨small', rfl⟩ := List.getElem?_eq_some_iff.1 input'
    exact leaves.subset leaves' more (subsets.get small small')
  · exact .inr ⟨not_lt.1 upper, filter_of_overflow lengths few' feasible' (not_lt.1 upper)⟩

/-- An item cut to the closure of the first bin touches the second one again, which is ruled out for it once more. -/
theorem filter_stable_touching_bins :
    let f : BinCountFilter := { bins := [⟨0.0, 1.0⟩, ⟨1.0, 2.0⟩] }
    let items := [Domain.real { interval := ⟨0.0, 1.5⟩, precision := 0.5 }, .finite ⟨[0, 1], by decide⟩]
    let left := [Domain.real { interval := ⟨0.0, 1.0⟩, precision := 0.5 }, .finite ⟨[0], by decide⟩]
    f.filter items [(1, 2), (0, 0)] = .ok ⟨left, [(2, 2), (0, 0)]⟩ ∧
      f.filter left [(2, 2), (0, 0)] = .ok ⟨left, [(2, 2), (0, 0)]⟩ ∧
      ∃ out, f.filter items [(0, 2), (0, 1)] = .ok out ∧ List.Forall₂ Domain.Subset left out.items ∧
        List.Forall₂ RangeInside [(2, 2), (0, 0)] out.counts := by
  intro f items left
  have succeeds : f.filter items [(1, 2), (0, 0)] = .ok ⟨left, [(2, 2), (0, 0)]⟩ := by decide +kernel
  obtain ⟨-, again, more⟩ := filter_stable f items _ _ (by decide) (by decide) succeeds
  have larger : List.Forall₂ RangeInside [(1, 2), (0, 0)] [(0, 2), (0, 1)] :=
    .cons ⟨by decide, le_rfl⟩ (.cons ⟨le_rfl, by decide⟩ .nil)
  have same : List.Forall₂ Domain.Subset items items := List.forall₂_same.2 fun item _ => .refl item
  exact ⟨succeeds, again, (more items _ same larger).resolve_right (by decide)⟩

/-- Nothing is left of an item in a bin with its bounds the wrong way round, and so a second run finds no bin for it. -/
theorem filter_fails_again_of_reversed_bin :
    let f : BinCountFilter := { bins := [⟨20.0, 2.0⟩] }
    let left := Domain.real { interval := .empty, precision := 0.5 }
    ofBins f.bins = .ok f ∧
      f.filter [.real { interval := ⟨1.0, 30.0⟩, precision := 0.5 }] [(1, 1)] = .ok ⟨[left], [(1, 1)]⟩ ∧
      f.filter [left] [(1, 1)] = .error (.error (.itemInNoBin 0)) := by
  refine ⟨by decide, by decide +kernel, by decide +kernel⟩

end BinCountFilter

end StatBounds
