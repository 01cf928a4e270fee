import StatBounds.Proofs.Transport.Bisection
import StatBounds.Proofs.Transport.Placement

/-! # Feasibility, support and ranges of counts

A placement of the other items, in bins of which one has a place less, is a placement that sends the
remaining item to that bin. A narrower range for one bin leaves the placements whose count lies in it.
So both questions are questions about the feasibility of a changed problem, and bisection finds the
extreme counts because fewer placements are left the narrower a range becomes.
-/

namespace StatBounds.Transportation

variable {t : Transportation} {bins : List Nat}

/-- Some placement is within the bounds. -/
def Feasible (t : Transportation) : Prop :=
  ∃ bins, Placement t bins

/-- The sums of the bounds fit in an unsigned word, and each upper bound in a signed one. -/
structure Fits (t : Transportation) : Prop where
  lower : (t.bounds.map Prod.fst).sum < 2 ^ 64
  upper : (t.bounds.map Prod.snd).sum < 2 ^ 64
  word : ∀ pair ∈ t.bounds, pair.2 < 2 ^ 63

/-! ## Feasibility -/

theorem boundsOf_getElem {b : Nat} (inside : b < t.bounds.length) : t.boundsOf b = t.bounds[b] := by
  rw [boundsOf, List.getD_eq_getElem _ _ inside]

theorem Placement.lower_le (placement : Placement t bins) : t.lowerSum ≤ t.items := by
  have counted := placement.sum_count fun _ => 1
  have bound : ∑ b ∈ Finset.range t.bins, ((t.boundsOf b).1 : Int) ≤
      ∑ b ∈ Finset.range t.bins, (1 : Int) * bins.count b :=
    Finset.sum_le_sum fun b member => by
      have := (placement.counts b (Finset.mem_range.1 member)).1
      omega
  rw [← lowerSum_eq, counted] at bound
  simpa using bound

theorem Placement.le_upper (placement : Placement t bins) :
    t.items ≤ (t.bounds.map Prod.snd).sum := by
  have counted := placement.sum_count fun _ => 1
  have bound : ∑ b ∈ Finset.range t.bins, (1 : Int) * bins.count b ≤
      ∑ b ∈ Finset.range t.bins, ((t.boundsOf b).2 : Int) :=
    Finset.sum_le_sum fun b member => by
      have := (placement.counts b (Finset.mem_range.1 member)).2
      omega
  rw [← t.sum_bounds Prod.snd, counted, Finset.sum_const, Finset.card_range, nsmul_eq_mul, mul_one]
    at bound
  exact_mod_cast bound

theorem Placement.ordered (placement : Placement t bins) :
    ∀ pair ∈ t.bounds, pair.1 ≤ pair.2 := by
  intro pair member
  obtain ⟨b, inside, rfl⟩ := List.getElem_of_mem member
  have := placement.counts b inside
  rw [boundsOf_getElem inside] at this
  exact this.1.trans this.2

/-- Bounds that some number of items per bin can meet. -/
def Consistent (t : Transportation) : Prop :=
  (∀ pair ∈ t.bounds, pair.1 ≤ pair.2) ∧ t.lowerSum ≤ t.items ∧ t.items ≤ (t.bounds.map Prod.snd).sum

theorem countSum_eq {counts : List Nat} (small : counts.sum < 2 ^ 64) :
    countSum counts = .ok counts.sum :=
  if_pos small

theorem any_reversed_eq_false_iff :
    (t.bounds.any fun (lo, hi) => lo > hi) = false ↔ ∀ pair ∈ t.bounds, pair.1 ≤ pair.2 := by
  simp

theorem solve_of_consistent (fits : t.Fits) (consistent : t.Consistent) :
    t.solve = .ok (t.place? t.lowerSum) := by
  obtain ⟨ordered, low, high⟩ := consistent
  have ordered := any_reversed_eq_false_iff.2 ordered
  have low : ¬ (t.bounds.map Prod.fst).sum > t.items := Nat.not_lt.2 low
  have high : ¬ (t.bounds.map Prod.snd).sum < t.items := Nat.not_lt.2 high
  rw [solve, countSum_eq fits.lower, countSum_eq fits.upper]
  simp [ordered, low, high, pure, bind, Except.bind, Except.pure, lowerSum]

theorem solve_of_not_consistent (fits : t.Fits) (inconsistent : ¬ t.Consistent) : t.solve = .ok none := by
  rw [solve, countSum_eq fits.lower, countSum_eq fits.upper]
  by_cases ordered : ∀ pair ∈ t.bounds, pair.1 ≤ pair.2
  · have outside : (t.bounds.map Prod.fst).sum > t.items ∨ (t.bounds.map Prod.snd).sum < t.items := by
      by_contra within
      exact inconsistent ⟨ordered, by rw [lowerSum]; omega, by omega⟩
    have ordered := any_reversed_eq_false_iff.2 ordered
    have outside : (decide ((t.bounds.map Prod.fst).sum > t.items) ||
        decide ((t.bounds.map Prod.snd).sum < t.items)) = true := by
      simpa using outside
    simp only [ordered, pure, bind, Except.bind, Except.pure]
    rw [if_neg (by decide), if_pos outside]
  · have reversed := mt any_reversed_eq_false_iff.1 ordered
    rw [Bool.not_eq_false] at reversed
    rw [if_pos reversed]
    rfl

/-- The search for a placement does not fail. What it finds is a placement, and it finds one if there is any. -/
theorem solve_spec (fits : t.Fits) :
    ∃ answer, t.solve = .ok answer ∧ (∀ bins, answer = some bins → Placement t bins) ∧
      (t.Feasible → answer ≠ none) := by
  by_cases consistent : t.Consistent
  · have valid : t.Valid := fun pair member => ⟨consistent.1 pair member, fits.word pair member⟩
    refine ⟨_, solve_of_consistent fits consistent, fun bins placed => place?_sound valid placed, ?_⟩
    rintro ⟨bins, placement⟩ none
    obtain ⟨found, placed⟩ := place?_complete valid placement
    rw [none] at placed
    cases placed
  · refine ⟨none, solve_of_not_consistent fits consistent, fun _ found => (Option.some_ne_none _ found.symm).elim, ?_⟩
    rintro ⟨bins, placement⟩
    exact absurd ⟨placement.ordered, placement.lower_le, placement.le_upper⟩ consistent

/-- The decision whether there is a placement is right, and it does not fail. -/
theorem isFeasible_spec (fits : t.Fits) :
    ∃ answer, t.isFeasible = .ok answer ∧ (answer = true ↔ t.Feasible) := by
  obtain ⟨answer, solved, sound, complete⟩ := solve_spec fits
  refine ⟨answer.isSome, ?_, fun found => ?_, fun feasible => ?_⟩
  · rw [isFeasible, solved]
    rfl
  · obtain ⟨bins, placed⟩ := Option.isSome_iff_exists.1 found
    exact ⟨bins, sound bins placed⟩
  · exact Option.isSome_iff_ne_none.2 (complete feasible)

/-- The search takes every list of existing bins and all bounds whose sums fit in a word. It comes to an end with a
    placement of each item in one of its bins if there is any, and says that there is none otherwise. -/
theorem solve_decides {allowed : List (List Nat)} {bounds : List (Nat × Nat)}
    (inRange : ∀ bins ∈ allowed, ∀ b ∈ bins, b < bounds.length)
    (upper : (bounds.map Prod.snd).sum < 2 ^ 63) (lower : (bounds.map Prod.fst).sum < 2 ^ 64) :
    ∃ t answer, ofLists allowed bounds = .ok t ∧ t.allowed = allowed ∧ t.bounds = bounds ∧
      t.solve = .ok answer ∧ (answer.isSome = true ↔ ∃ bins, Placement t bins) ∧
      (∀ bins, answer = some bins → Placement t bins) ∧
      ((∃ pair ∈ bounds, pair.2 < pair.1) → answer = none) := by
  let t : Transportation := { allowed, bounds, inRange }
  have word : ∀ pair ∈ bounds, pair.2 < 2 ^ 63 := fun pair member =>
    (List.le_sum_of_mem (List.mem_map_of_mem member)).trans_lt upper
  have fits : t.Fits := ⟨lower, upper.trans (by norm_num), word⟩
  obtain ⟨answer, solved, sound, complete⟩ := solve_spec fits
  refine ⟨t, answer, dif_pos inRange, rfl, rfl, solved, ⟨fun found => ?_, fun feasible => ?_⟩, sound, ?_⟩
  · obtain ⟨bins, placed⟩ := Option.isSome_iff_exists.1 found
    exact ⟨bins, sound bins placed⟩
  · exact Option.isSome_iff_ne_none.2 (complete feasible)
  · rintro ⟨pair, member, reversed⟩
    cases found : answer with
    | none => rfl
    | some bins =>
        have ordered := (sound bins found).ordered pair member
        omega

/-- Two items that both have to go to the second bin, and may also go to the first. -/
theorem solve_decides_two_items :
    let allowed := [[0, 1, 1], [0, 1]]
    let bounds := [(0, 2), (2, 2)]
    ∃ t, ofLists allowed bounds = .ok t ∧ t.solve = .ok (some [1, 1]) ∧ Placement t [1, 1] := by
  intro allowed bounds
  obtain ⟨t, answer, made, -, -, solved, -, sound, -⟩ :=
    solve_decides (show ∀ bins ∈ allowed, ∀ b ∈ bins, b < bounds.length by decide) (by decide) (by decide)
  have run : (ofLists allowed bounds).bind solve = .ok (some [1, 1]) := by decide +kernel
  rw [made] at run
  have found : t.solve = .ok (some [1, 1]) := run
  obtain rfl : answer = some [1, 1] := Except.ok.inj (solved.symm.trans found)
  exact ⟨t, made, found, sound _ rfl⟩

/-! ## Changed bounds and removed items -/

theorem boundsOf_withBounds {bin : Nat} (inside : bin < t.bins) (pair : Nat × Nat) (b : Nat) :
    (t.withBounds bin pair).boundsOf b = if b = bin then pair else t.boundsOf b := by
  have inside : bin < t.bounds.length := inside
  simp only [boundsOf, withBounds, List.getD_eq_getElem?_getD, List.getElem?_set]
  by_cases same : b = bin
  · subst same
    simp [inside]
  · simp [same, Ne.symm same]

@[simp] theorem bins_withBounds (bin : Nat) (pair : Nat × Nat) : (t.withBounds bin pair).bins = t.bins := by
  simp [withBounds, Transportation.bins]

theorem placement_withBounds_iff {bin : Nat} (inside : bin < t.bins) {pair : Nat × Nat}
    (low : (t.boundsOf bin).1 ≤ pair.1) (high : pair.2 ≤ (t.boundsOf bin).2) :
    Placement (t.withBounds bin pair) bins ↔
      Placement t bins ∧ pair.1 ≤ bins.count bin ∧ bins.count bin ≤ pair.2 := by
  constructor
  · intro placement
    have here := placement.counts bin (by simpa using inside)
    rw [boundsOf_withBounds inside, if_pos rfl] at here
    refine ⟨⟨placement.allowed, fun b within => ?_⟩, here⟩
    have there := placement.counts b (by simpa using within)
    rw [boundsOf_withBounds inside] at there
    split_ifs at there with same
    · subst same
      omega
    · exact there
  · rintro ⟨placement, here⟩
    refine ⟨placement.allowed, fun b within => ?_⟩
    rw [boundsOf_withBounds inside]
    split_ifs with same
    · subst same
      exact here
    · exact placement.counts b (by simpa using within)

theorem sum_set_le {counts : List Nat} {i new : Nat} : (counts.set i new).sum ≤ counts.sum + new := by
  induction counts generalizing i with
  | nil => simp
  | cons first rest ih =>
      cases i with
      | zero => simp only [List.set_cons_zero, List.sum_cons]; omega
      | succ i =>
          have := ih (i := i)
          simp only [List.set_cons_succ, List.sum_cons]
          omega

theorem sum_set_le_of_le {counts : List Nat} {i new : Nat} (inside : i < counts.length)
    (le : new ≤ counts[i]) : (counts.set i new).sum ≤ counts.sum := by
  induction counts generalizing i with
  | nil => simp
  | cons first rest ih =>
      cases i with
      | zero =>
          simp only [List.getElem_cons_zero] at le
          simp only [List.set_cons_zero, List.sum_cons]
          omega
      | succ i =>
          have := ih (by simpa using inside) (by simpa using le)
          simp only [List.set_cons_succ, List.sum_cons]
          omega

/-- Bounds that are changed for one bin still fit if the upper one does not grow and the lower one
    leaves the sum within a word. -/
theorem Fits.withBounds (fits : t.Fits) {bin : Nat} (inside : bin < t.bins) {pair : Nat × Nat}
    (low : pair.1 ≤ (t.boundsOf bin).1 ∨ t.lowerSum + pair.1 < 2 ^ 64)
    (high : pair.2 ≤ (t.boundsOf bin).2) : (t.withBounds bin pair).Fits := by
  have inside : bin < t.bounds.length := inside
  rw [boundsOf_getElem inside] at low high
  refine ⟨?_, ?_, fun changed member => ?_⟩
  · simp only [Transportation.withBounds, List.map_set]
    rcases low with low | low
    · refine lt_of_le_of_lt (sum_set_le_of_le (by simpa using inside) ?_) fits.lower
      simpa using low
    · exact lt_of_le_of_lt sum_set_le low
  · simp only [Transportation.withBounds, List.map_set]
    refine lt_of_le_of_lt (sum_set_le_of_le (by simpa using inside) ?_) fits.upper
    simpa using high
  · rcases List.mem_or_eq_of_mem_set member with member | rfl
    · exact fits.word changed member
    · exact lt_of_le_of_lt high (fits.word _ (List.getElem_mem inside))

theorem Fits.without (fits : t.Fits) (item : Nat) : (t.without item).Fits :=
  ⟨fits.lower, fits.upper, fits.word⟩

section Lists

variable {α β : Type} {R : α → β → Prop}

theorem forall₂_eraseIdx {as : List α} {bs : List β} (related : List.Forall₂ R as bs) (i : Nat) :
    List.Forall₂ R (as.eraseIdx i) (bs.eraseIdx i) := by
  induction related generalizing i with
  | nil => simp
  | cons head tail ih =>
      cases i with
      | zero => exact tail
      | succ i => exact .cons head (ih i)

theorem forall₂_insertIdx {as : List α} {bs : List β} {i : Nat} {a : α} (inside : i < bs.length)
    (related : List.Forall₂ R as (bs.eraseIdx i)) (chosen : R a bs[i]) :
    List.Forall₂ R (as.insertIdx i a) bs := by
  induction i generalizing as bs with
  | zero =>
      obtain ⟨b, rest, rfl⟩ := List.exists_cons_of_length_pos inside
      exact .cons chosen related
  | succ i ih =>
      obtain ⟨b, rest, rfl⟩ := List.exists_cons_of_length_pos (Nat.zero_lt_of_lt inside)
      cases related with
      | cons head tail => exact .cons head (ih (by simpa using inside) tail chosen)

end Lists

/-! ## Support -/

def reduced (t : Transportation) (item bin : Nat) : Transportation :=
  (t.without item).withBounds bin ((t.boundsOf bin).1 - 1, (t.boundsOf bin).2 - 1)

theorem boundsOf_reduced {item bin : Nat} (inside : bin < t.bins) (b : Nat) :
    (t.reduced item bin).boundsOf b =
      if b = bin then ((t.boundsOf bin).1 - 1, (t.boundsOf bin).2 - 1) else t.boundsOf b :=
  boundsOf_withBounds (t := t.without item) inside _ b

theorem bins_reduced (item bin : Nat) : (t.reduced item bin).bins = t.bins :=
  bins_withBounds (t := t.without item) bin _

/-- Without an item that is in a bin, the others are placed in the problem that is left. -/
theorem Placement.reduce (placement : Placement t bins) {item bin : Nat}
    (chosen : bins[item]? = some bin) : Placement (t.reduced item bin) (bins.eraseIdx item) := by
  obtain ⟨inside, same⟩ := List.getElem?_eq_some_iff.1 chosen
  have binInside : bin < t.bins := by
    have := placement.bin_lt (placement.length_eq ▸ inside)
    rwa [List.getD_eq_getElem _ _ inside, same] at this
  have count (b : Nat) : bins.count b = (bins.eraseIdx item).count b + if bin = b then 1 else 0 := by
    rw [← (List.getElem_cons_eraseIdx_perm inside).count_eq b, List.count_cons, same]
    simp
  refine ⟨forall₂_eraseIdx placement.allowed item, fun b within => ?_⟩
  rw [bins_reduced] at within
  have here := placement.counts b within
  have counted := count b
  rw [boundsOf_reduced binInside]
  split_ifs with target
  · subst target
    rw [if_pos rfl] at counted
    simp only
    omega
  · rw [if_neg (Ne.symm target)] at counted
    omega

theorem Placement.complete {item bin : Nat} (inside : item < t.allowed.length) (binInside : bin < t.bins)
    (room : (t.boundsOf bin).2 ≠ 0) (allowed : bin ∈ t.allowed[item])
    (placement : Placement (t.reduced item bin) bins) : Placement t (bins.insertIdx item bin) := by
  have length : bins.length = t.allowed.length - 1 := by
    rw [placement.length_eq]
    exact List.length_eraseIdx_of_lt inside
  have count (b : Nat) : (bins.insertIdx item bin).count b = bins.count b + if bin = b then 1 else 0 := by
    rw [(List.perm_insertIdx bin bins (by omega)).count_eq b, List.count_cons]
    simp
  refine ⟨forall₂_insertIdx inside placement.allowed allowed, fun b within => ?_⟩
  have here := placement.counts b (by rwa [bins_reduced])
  have counted := count b
  rw [boundsOf_reduced binInside] at here
  split_ifs at here with target
  · subst target
    rw [if_pos rfl] at counted
    simp only at here
    omega
  · rw [if_neg (Ne.symm target)] at counted
    omega

/-- Whether some placement sends an item to a bin is decided right, and the decision does not fail. -/
theorem supports_spec (fits : t.Fits) {item bin : Nat} (inside : item < t.items) (binInside : bin < t.bins) :
    ∃ answer, t.supports item bin = .ok answer ∧
      (answer = true ↔ ∃ bins, Placement t bins ∧ bins[item]? = some bin) := by
  have inside : item < t.allowed.length := inside
  have read : t.bounds[bin]? = some (t.boundsOf bin) := by
    rw [boundsOf_getElem binInside]
    exact List.getElem?_eq_getElem binInside
  have choices : t.allowed[item]? = some t.allowed[item] := List.getElem?_eq_getElem inside
  rcases bounds : t.boundsOf bin with ⟨lo, hi⟩
  simp only [supports, read, bounds, choices]
  by_cases full : hi = 0
  · refine ⟨false, by rw [if_pos full]; rfl, by simp, ?_⟩
    rintro ⟨bins, placement, chosen⟩
    have counted := (placement.counts bin binInside).2
    have := List.count_pos_iff.2 (List.mem_of_getElem? chosen)
    rw [bounds] at counted
    simp only at counted
    omega
  rw [if_neg full]
  by_cases allowed : bin ∈ t.allowed[item]
  · have fitsLeft : (t.reduced item bin).Fits :=
      (fits.without item).withBounds binInside (.inl (Nat.sub_le _ _)) (Nat.sub_le _ _)
    obtain ⟨answer, decided, feasible⟩ := isFeasible_spec fitsLeft
    refine ⟨answer, ?_, feasible.trans ⟨?_, ?_⟩⟩
    · simp only [reduced, bounds] at decided
      simp [allowed, decided]
    · rintro ⟨bins, placement⟩
      have length : bins.length = t.allowed.length - 1 := by
        rw [placement.length_eq]
        exact List.length_eraseIdx_of_lt inside
      refine ⟨_, placement.complete inside binInside (by rwa [bounds]) allowed, ?_⟩
      rw [List.getElem?_insertIdx_self, if_pos (by omega)]
    · rintro ⟨bins, placement, chosen⟩
      exact ⟨_, placement.reduce chosen⟩
  · refine ⟨false, by simp [allowed, pure, Except.pure], by simp, ?_⟩
    rintro ⟨bins, placement, chosen⟩
    have member := placement.mem_allowed inside
    rw [List.getD_eq_getElem _ _ inside, List.getD_eq_getElem?_getD, chosen] at member
    exact absurd member allowed

/-! ## Ranges of counts -/

/-- The range of counts of a bin is exact, and both searches for it run in words. -/
theorem countRange_runs (fits : t.Fits) (items : t.items < 2 ^ 63) (feasible : t.Feasible) {bin : Nat}
    (inside : bin < t.bins) :
    ∃ fewest most, t.countRange bin = .ok (some (fewest, most)) ∧
      IsLeast {count | ∃ bins, Placement t bins ∧ bins.count bin = count} fewest ∧
      IsGreatest {count | ∃ bins, Placement t bins ∧ bins.count bin = count} most ∧
      Ascends (fun c => (t.withBounds bin (c, (t.boundsOf bin).2)).isFeasible) (t.boundsOf bin).1
        (t.boundsOf bin).2 most ∧
      Descends (fun c => (t.withBounds bin ((t.boundsOf bin).1, c)).isFeasible) (t.boundsOf bin).1
        (t.boundsOf bin).2 fewest := by
  obtain ⟨answer, decided, isFeasible⟩ := isFeasible_spec fits
  obtain rfl : answer = true := isFeasible.2 feasible
  have read : t.bounds[bin]? = some (t.boundsOf bin) := by
    rw [boundsOf_getElem inside]
    exact List.getElem?_eq_getElem inside
  obtain ⟨some, placed⟩ := feasible
  have lower := placed.lower_le
  have word : (t.boundsOf bin).2 < 2 ^ 63 := by
    rw [boundsOf_getElem inside]
    exact fits.word _ (List.getElem_mem inside)
  have here := placed.counts bin inside
  rcases bounds : t.boundsOf bin with ⟨lo, hi⟩
  rw [bounds] at read word here
  simp only at word here
  -- A range for the bin leaves the placements whose count lies in it.
  have left {pair : Nat × Nat} (low : lo ≤ pair.1) (high : pair.2 ≤ hi) :
      (t.withBounds bin pair).Feasible ↔
        ∃ bins, Placement t bins ∧ pair.1 ≤ bins.count bin ∧ bins.count bin ≤ pair.2 :=
    exists_congr fun bins => placement_withBounds_iff inside (by rwa [bounds]) (by rwa [bounds])
  have fitsAll {pair : Nat × Nat} (le : pair.1 ≤ hi) (high : pair.2 ≤ hi) : (t.withBounds bin pair).Fits :=
    fits.withBounds inside (.inr (by omega)) (by rwa [bounds])
  have within {bins : List Nat} (placement : Placement t bins) : lo ≤ bins.count bin ∧ bins.count bin ≤ hi := by
    simpa [bounds] using placement.counts bin inside
  have atLeast (c : Nat) (low : lo ≤ c) (high : c ≤ hi) : ∃ answer, (t.withBounds bin (c, hi)).isFeasible = .ok answer ∧
      (answer = true ↔ ∃ bins, Placement t bins ∧ c ≤ bins.count bin) := by
    obtain ⟨answer, decided, feasible⟩ := isFeasible_spec (@fitsAll (c, hi) high le_rfl)
    refine ⟨answer, decided, feasible.trans ((left low le_rfl).trans (exists_congr fun bins => ?_))⟩
    exact and_congr_right fun placement => and_iff_left (within placement).2
  have atMost (c : Nat) (low : lo ≤ c) (high : c ≤ hi) : ∃ answer, (t.withBounds bin (lo, c)).isFeasible = .ok answer ∧
      (answer = true ↔ ∃ bins, Placement t bins ∧ bins.count bin ≤ c) := by
    obtain ⟨answer, decided, feasible⟩ := isFeasible_spec (@fitsAll (lo, c) (here.1.trans here.2) high)
    refine ⟨answer, decided, feasible.trans ((left le_rfl high).trans (exists_congr fun bins => ?_))⟩
    exact and_congr_right fun placement => and_iff_right (within placement).1
  obtain ⟨most, ascends, lowMost, highMost, ⟨top, topPlaced, topCount⟩, greatest⟩ :=
    exists_ascends _ (here.1.trans here.2) (by omega) (by omega) ⟨some, placed, here.1⟩
      (fun c d le ⟨bins, placement, count⟩ => ⟨bins, placement, le.trans count⟩) atLeast
  obtain ⟨fewest, descends, lowFewest, highFewest, ⟨bottom, bottomPlaced, bottomCount⟩, least⟩ :=
    exists_descends _ (here.1.trans here.2) (by omega) ⟨some, placed, here.2⟩
      (fun c d le ⟨bins, placement, count⟩ => ⟨bins, placement, count.trans le⟩) atMost
  refine ⟨fewest, most, ?_, ⟨⟨bottom, bottomPlaced, ?_⟩, ?_⟩, ⟨⟨top, topPlaced, ?_⟩, ?_⟩, ascends, descends⟩
  · simp only [countRange, decided, read, bind, Except.bind, ascends.greatest_eq, descends.least_eq]
    rfl
  · exact le_antisymm bottomCount (least _ (within bottomPlaced).1 ⟨bottom, bottomPlaced, le_rfl⟩)
  · rintro count ⟨bins, placement, rfl⟩
    exact least _ (within placement).1 ⟨bins, placement, le_rfl⟩
  · exact le_antisymm (greatest _ (within topPlaced).2 ⟨top, topPlaced, le_rfl⟩) topCount
  · rintro count ⟨bins, placement, rfl⟩
    exact greatest _ (within placement).2 ⟨bins, placement, le_rfl⟩

/-- The range of counts of a bin is exact, and finding it does not fail. -/
theorem countRange_spec (fits : t.Fits) (items : t.items < 2 ^ 63) (feasible : t.Feasible) {bin : Nat}
    (inside : bin < t.bins) :
    ∃ fewest most, t.countRange bin = .ok (some (fewest, most)) ∧
      IsLeast {count | ∃ bins, Placement t bins ∧ bins.count bin = count} fewest ∧
      IsGreatest {count | ∃ bins, Placement t bins ∧ bins.count bin = count} most := by
  obtain ⟨fewest, most, same, least, greatest, -⟩ := countRange_runs fits items feasible inside
  exact ⟨fewest, most, same, least, greatest⟩

end StatBounds.Transportation
