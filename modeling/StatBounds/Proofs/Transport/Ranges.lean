import StatBounds.Proofs.Transport.Exchange
import StatBounds.Proofs.Transport.Support

/-! # Supported bins and counts without gaps

An item is supported by a bin exactly if some placement sends it there. The counts of a bin over all placements have no
gaps: they are the numbers of a range, whose ends are found by two bisections in machine words.
-/

namespace StatBounds.Transportation

/-- The numbers of items that placements give to a bin. -/
def countsOf (t : Transportation) (bin : Nat) : Set Nat :=
  {count | ∃ bins, Placement t bins ∧ bins.count bin = count}

/-- There is no range of counts exactly if there is no placement, and a range has the least and the greatest count as
    its ends. -/
def IsCountRange (t : Transportation) (bin : Nat) : Option (Nat × Nat) → Prop
  | none => ¬ t.Feasible
  | some (fewest, most) => IsLeast (t.countsOf bin) fewest ∧ IsGreatest (t.countsOf bin) most

variable {t : Transportation} {bin : Nat}

theorem countsOf_nonempty_iff : (t.countsOf bin).Nonempty ↔ t.Feasible :=
  ⟨fun ⟨_, bins, placement, _⟩ => ⟨bins, placement⟩, fun ⟨bins, placement⟩ => ⟨_, bins, placement, rfl⟩⟩

/-- There is one range of counts only. -/
theorem IsCountRange.unique {range other : Option (Nat × Nat)} (one : t.IsCountRange bin range)
    (two : t.IsCountRange bin other) : range = other := by
  cases range with
  | none =>
      cases other with
      | none => rfl
      | some other => exact absurd (countsOf_nonempty_iff.1 ⟨_, two.1.1⟩) one
  | some range =>
      cases other with
      | none => exact absurd (countsOf_nonempty_iff.1 ⟨_, one.1.1⟩) two
      | some other => exact congrArg some (Prod.ext (one.1.unique two.1) (one.2.unique two.2))

/-- A problem without placements has no range of counts. -/
theorem countRange_of_infeasible (fits : t.Fits) (infeasible : ¬ t.Feasible) : t.countRange bin = .ok none := by
  obtain ⟨answer, decided, isFeasible⟩ := isFeasible_spec fits
  obtain rfl : answer = false := Bool.eq_false_iff.2 (mt isFeasible.1 infeasible)
  rw [countRange, decided]
  rfl

/-- Whether or not there is a placement, the range of counts of a bin is found. -/
theorem exists_countRange (fits : t.Fits) (items : t.items < 2 ^ 63) (inside : bin < t.bins) :
    ∃ range, t.countRange bin = .ok range ∧ t.IsCountRange bin range := by
  by_cases feasible : t.Feasible
  · obtain ⟨fewest, most, same, least, greatest⟩ := countRange_spec fits items feasible inside
    exact ⟨_, same, least, greatest⟩
  · exact ⟨none, countRange_of_infeasible fits feasible, feasible⟩

/-- Upper bounds that a signed word can add up fit. -/
theorem fits_of_sum (upper : (t.bounds.map Prod.snd).sum < 2 ^ 63) (lower : (t.bounds.map Prod.fst).sum < 2 ^ 64) :
    t.Fits where
  lower := lower
  upper := upper.trans (by norm_num)
  word := fun _ member => (List.le_sum_of_mem (List.mem_map_of_mem member)).trans_lt upper

/-- An item is supported by a bin exactly if some placement sends it there. There is no range of counts for a bin
    exactly if there is no placement. Otherwise both searches for its ends run in words, the range has the least and the
    greatest count of all placements as its ends, and every number between them is the count of a placement. -/
theorem supports_and_counts_exact (t : Transportation) (upper : (t.bounds.map Prod.snd).sum < 2 ^ 63)
    (lower : (t.bounds.map Prod.fst).sum < 2 ^ 64) :
    (∀ item < t.items, ∀ bin < t.bins, ∃ answer, t.supports item bin = .ok answer ∧
      (answer = true ↔ ∃ bins, Placement t bins ∧ bins[item]? = some bin)) ∧
    ∀ bin < t.bins, ∃ range, t.countRange bin = .ok range ∧ (range = none ↔ ¬ ∃ bins, Placement t bins) ∧
      ∀ fewest most, range = some (fewest, most) →
        IsLeast (t.countsOf bin) fewest ∧ IsGreatest (t.countsOf bin) most ∧
        (∀ count, fewest ≤ count → count ≤ most → count ∈ t.countsOf bin) ∧
        Ascends (fun c => (t.withBounds bin (c, (t.boundsOf bin).2)).isFeasible) (t.boundsOf bin).1
          (t.boundsOf bin).2 most ∧
        Descends (fun c => (t.withBounds bin ((t.boundsOf bin).1, c)).isFeasible) (t.boundsOf bin).1
          (t.boundsOf bin).2 fewest := by
  have fits := fits_of_sum upper lower
  refine ⟨fun item inside bin binInside => supports_spec fits inside binInside, fun bin inside => ?_⟩
  by_cases feasible : t.Feasible
  · obtain ⟨bins, placement⟩ := feasible
    have few : t.items < 2 ^ 63 := placement.le_upper.trans_lt upper
    obtain ⟨fewest, most, same, least, greatest, ascends, descends⟩ :=
      countRange_runs fits few ⟨bins, placement⟩ inside
    refine ⟨_, same, iff_of_false (Option.some_ne_none _) (not_not.2 ⟨bins, placement⟩), ?_⟩
    rintro _ _ ⟨⟩
    refine ⟨least, greatest, fun count above below => ?_, ascends, descends⟩
    obtain ⟨low, first, rfl⟩ := least.1
    obtain ⟨high, last, rfl⟩ := greatest.1
    exact first.exists_count last above below
  · refine ⟨none, countRange_of_infeasible fits feasible, iff_of_true rfl feasible, ?_⟩
    rintro _ _ ⟨⟩

/-- Four items that may go to either of two bins, of which the second takes one to three. -/
theorem supports_and_counts_exact_four_items :
    let t : Transportation :=
      { allowed := [[0, 1], [0, 1], [0, 1], [0, 1]], bounds := [(0, 4), (1, 3)], inRange := by decide }
    t.countRange 0 = .ok (some (1, 3)) ∧ 2 ∈ t.countsOf 0 := by
  intro t
  obtain ⟨-, ranges⟩ := supports_and_counts_exact t (by decide) (by decide)
  obtain ⟨range, found, -, exact⟩ := ranges 0 (by decide)
  have run : t.countRange 0 = .ok (some (1, 3)) := by decide +kernel
  obtain rfl : range = some (1, 3) := Except.ok.inj (found.symm.trans run)
  exact ⟨run, (exact 1 3 rfl).2.2.1 2 (by decide) (by decide)⟩

end StatBounds.Transportation
