import StatBounds.Proofs.Transport.Ranges

/-! # Upper bounds beyond the number of items

No bin takes more than all items, so a greater upper bound is no limit: the placements stay the same when every upper
bound is clipped to the number of items. The clipped problem answers all questions about the placements right, whatever
the upper bounds are. The problem itself gives the same answers as long as its upper bounds are signed words and add up
to a word; beyond that, the capacity of a bin turns negative or the sum is refused.
-/

namespace StatBounds.Transportation

variable {t asked : Transportation} {bins : List Nat}

/-- The same problem with upper bounds that are no greater than the number of items. -/
def clipped (t : Transportation) : Transportation where
  allowed := t.allowed
  bounds := t.bounds.map fun (lo, hi) => (lo, min hi t.items)
  inRange := by simpa using t.inRange

theorem bins_clipped : t.clipped.bins = t.bins :=
  List.length_map ..

theorem boundsOf_clipped (b : Nat) :
    t.clipped.boundsOf b = ((t.boundsOf b).1, min (t.boundsOf b).2 t.items) := by
  simp only [boundsOf, clipped, List.getD_eq_getElem?_getD, List.getElem?_map]
  cases t.bounds[b]? <;> simp

/-- Clipping changes no placement, since no bin takes more than all items. -/
theorem placement_clipped : Placement t.clipped bins ↔ Placement t bins := by
  constructor
  · intro placement
    refine ⟨placement.allowed, fun b inside => ?_⟩
    have within := placement.counts b (bins_clipped.symm ▸ inside)
    rw [boundsOf_clipped] at within
    exact ⟨within.1, within.2.trans (min_le_left _ _)⟩
  · intro placement
    refine ⟨placement.allowed, fun b inside => ?_⟩
    have within := placement.counts b (bins_clipped ▸ inside)
    have most : bins.count b ≤ t.items := placement.length_eq ▸ List.count_le_length
    rw [boundsOf_clipped]
    exact ⟨within.1, le_min within.2 most⟩

theorem feasible_clipped : t.clipped.Feasible ↔ t.Feasible :=
  exists_congr fun _ => placement_clipped

theorem isCountRange_clipped {bin : Nat} {range : Option (Nat × Nat)} :
    t.clipped.IsCountRange bin range ↔ t.IsCountRange bin range := by
  have counts : t.clipped.countsOf bin = t.countsOf bin :=
    Set.ext fun _ => exists_congr fun _ => and_congr_left fun _ => placement_clipped
  cases range with
  | none => exact not_congr feasible_clipped
  | some range => rw [IsCountRange, IsCountRange, counts]

theorem fits_clipped (few : t.items < 2 ^ 63) (lower : (t.bounds.map Prod.fst).sum < 2 ^ 64)
    (upper : (t.clipped.bounds.map Prod.snd).sum < 2 ^ 64) : t.clipped.Fits where
  lower := by simpa [clipped, Function.comp_def] using lower
  upper := upper
  word := by
    intro pair member
    obtain ⟨range, -, rfl⟩ := List.mem_map.1 member
    exact (min_le_right _ _).trans_lt few

/-- The questions about the placements of a problem are answered right, and without a fault, when they are asked of a
    given problem. -/
structure Answers (asked t : Transportation) : Prop where
  isFeasible : ∃ answer, asked.isFeasible = .ok answer ∧ (answer = true ↔ ∃ bins, Placement t bins)
  supports : ∀ item < t.items, ∀ bin < t.bins, ∃ answer, asked.supports item bin = .ok answer ∧
    (answer = true ↔ ∃ bins, Placement t bins ∧ bins[item]? = some bin)
  countRange : ∀ bin < t.bins, ∃ range, asked.countRange bin = .ok range ∧ t.IsCountRange bin range

theorem answers_self (fits : t.Fits) (few : t.items < 2 ^ 63) : Answers t t where
  isFeasible := isFeasible_spec fits
  supports := fun _ inside _ binInside => supports_spec fits inside binInside
  countRange := fun _ inside => exists_countRange fits few inside

theorem answers_clipped (fits : t.clipped.Fits) (few : t.items < 2 ^ 63) : Answers t.clipped t := by
  have answers := answers_self fits few
  refine ⟨?_, fun item inside bin binInside => ?_, fun bin inside => ?_⟩
  · simpa only [placement_clipped] using answers.isFeasible
  · simpa only [placement_clipped] using answers.supports item inside bin (bins_clipped.symm ▸ binInside)
  · simpa only [isCountRange_clipped] using answers.countRange bin (bins_clipped.symm ▸ inside)

theorem Answers.same {other : Transportation} (one : Answers asked t) (two : Answers other t) :
    asked.isFeasible = other.isFeasible ∧
      (∀ item < t.items, ∀ bin < t.bins, asked.supports item bin = other.supports item bin) ∧
      ∀ bin < t.bins, asked.countRange bin = other.countRange bin := by
  refine ⟨?_, fun item inside bin binInside => ?_, fun bin inside => ?_⟩
  · obtain ⟨answer, same, iff⟩ := one.isFeasible
    obtain ⟨answer', same', iff'⟩ := two.isFeasible
    rw [same, same', Bool.eq_iff_iff.2 (iff.trans iff'.symm)]
  · obtain ⟨answer, same, iff⟩ := one.supports item inside bin binInside
    obtain ⟨answer', same', iff'⟩ := two.supports item inside bin binInside
    rw [same, same', Bool.eq_iff_iff.2 (iff.trans iff'.symm)]
  · obtain ⟨range, same, isRange⟩ := one.countRange bin inside
    obtain ⟨range', same', isRange'⟩ := two.countRange bin inside
    rw [same, same', isRange.unique isRange']

/-- With upper bounds clipped to the number of items all answers are right, however great the upper bounds are. Without
    clipping the answers are the same if the upper bounds add up to a word and each of them is a signed word. -/
theorem clipping_keeps_answers (t : Transportation) (few : t.items < 2 ^ 63)
    (lower : (t.bounds.map Prod.fst).sum < 2 ^ 64) (upper : (t.clipped.bounds.map Prod.snd).sum < 2 ^ 64) :
    Answers t.clipped t ∧
      ((t.bounds.map Prod.snd).sum < 2 ^ 64 → (∀ pair ∈ t.bounds, pair.2 < 2 ^ 63) →
        t.isFeasible = t.clipped.isFeasible ∧
        (∀ item < t.items, ∀ bin < t.bins, t.supports item bin = t.clipped.supports item bin) ∧
        ∀ bin < t.bins, t.countRange bin = t.clipped.countRange bin) := by
  have clipped := answers_clipped (fits_clipped few lower upper) few
  exact ⟨clipped, fun sum word => (answers_self ⟨lower, sum, word⟩ few).same clipped⟩

/-- The second item may go to a bin that takes as many items as a signed word can count. -/
theorem clipping_keeps_answers_two_items :
    let t : Transportation :=
      { allowed := [[0], [0, 1]], bounds := [(1, 5), (0, 2 ^ 63 - 1)], inRange := by decide }
    Answers t.clipped t ∧ t.countRange 1 = t.clipped.countRange 1 := by
  intro t
  obtain ⟨clipped, same⟩ := clipping_keeps_answers t (by decide) (by decide) (by decide)
  exact ⟨clipped, (same (by decide) (by decide)).2.2 1 (by decide)⟩

/-- A bin with the greatest word as its upper bound takes no item at all, though it may take one. Two such bins are not
    even added up. -/
theorem clipping_changes_answers :
    let one : Transportation := { allowed := [[0]], bounds := [(0, 2 ^ 64 - 1)], inRange := by decide }
    let two : Transportation :=
      { allowed := [[0, 1]], bounds := [(0, 2 ^ 64 - 1), (0, 2 ^ 64 - 1)], inRange := by decide }
    (one.isFeasible = .ok false ∧ one.clipped.isFeasible = .ok true ∧
      one.countRange 0 = .ok none ∧ one.clipped.countRange 0 = .ok (some (1, 1))) ∧
    two.isFeasible = .error .overflow ∧ two.clipped.isFeasible = .ok true := by
  decide +kernel

end StatBounds.Transportation
