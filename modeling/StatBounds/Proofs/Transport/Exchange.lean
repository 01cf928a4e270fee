import Mathlib.Data.Finset.Card
import StatBounds.Proofs.Transport.Placement

/-! # Counts between the extremes

Where one list of bins has a bin less often than another one, some items can be moved to their bins in the other list
such that the bin gets one item more, and the only bin with an item less had more than the other list gives it. Step by
step every count of the bin between the two is reached, while the counts of all other bins stay between theirs. So with
two placements all counts between theirs are those of placements.
-/

namespace StatBounds.Transportation

/-- Somewhere the second list has a value where the first one has another, if it has the value more often. -/
theorem exists_other {one other : List Nat} {b : Nat} (lengths : one.length = other.length)
    (fewer : one.count b < other.count b) : ∃ (i : Nat) (z : Nat), one[i]? = some z ∧ other[i]? = some b ∧ z ≠ b := by
  have first : one.count b = (one.zip other).countP (fun p => p.1 == b) := by
    conv_lhs => rw [← List.map_fst_zip lengths.le, List.count, List.countP_map]
    rfl
  have second : other.count b = (one.zip other).countP (fun p => p.2 == b) := by
    conv_lhs => rw [← List.map_snd_zip lengths.ge, List.count, List.countP_map]
    rfl
  by_contra! none
  rw [first, second] at fewer
  refine absurd fewer (not_lt.2 (List.countP_mono_left fun p member same => ?_))
  obtain ⟨i, found⟩ := List.mem_iff_getElem?.1 member
  rw [List.getElem?_zip_eq_some] at found
  rw [beq_iff_eq] at same ⊢
  exact none i p.1 found.1 (same ▸ found.2)

theorem count_set {bins : List Nat} {i z b : Nat} (found : bins[i]? = some z) (y : Nat) :
    (bins.set i b).count y + (if z = y then 1 else 0) = bins.count y + if b = y then 1 else 0 := by
  obtain ⟨inside, rfl⟩ := List.getElem?_eq_some_iff.1 found
  have positive (same : bins[i] = y) : 0 < bins.count y := List.count_pos_iff.2 (same ▸ List.getElem_mem inside)
  rw [List.count_set inside]
  simp only [beq_iff_eq]
  split_ifs <;> omega

def differences (one other : List Nat) : Finset Nat :=
  (Finset.range one.length).filter fun i => one[i]? ≠ other[i]?

theorem differences_set {one other : List Nat} {i z b : Nat} (found : one[i]? = some z) (there : other[i]? = some b)
    (differ : z ≠ b) : (differences (one.set i b) other).card < (differences one other).card := by
  obtain ⟨inside, rfl⟩ := List.getElem?_eq_some_iff.1 found
  refine Finset.card_lt_card (Finset.ssubset_iff.2 ⟨i, ?_, fun j member => ?_⟩)
  · simp [differences, List.getElem?_set, inside, there]
  · rcases Finset.mem_insert.1 member with rfl | member
    · simp [differences, inside, there, differ]
    · simp only [differences, Finset.mem_filter, Finset.mem_range, List.length_set] at member ⊢
      refine ⟨member.1, ?_⟩
      by_cases same : i = j
      · subst same
        simp [inside, there] at member
      · rw [List.getElem?_set_ne same] at member
        exact member.2

/-- Some items are moved to their bins in the other assignment: each of them goes where the one before it came from. -/
theorem exists_exchange {one other : List Nat} {b : Nat} (lengths : one.length = other.length)
    (fewer : one.count b < other.count b) : ∃ (bins : List Nat) (z : Nat), bins.length = one.length ∧
      (∀ i : Nat, bins[i]? = one[i]? ∨ bins[i]? = other[i]?) ∧ other.count z < one.count z ∧
      ∀ y, bins.count y + (if z = y then 1 else 0) = one.count y + if b = y then 1 else 0 := by
  obtain ⟨i, z, found, there, differ⟩ := exists_other lengths fewer
  have moved := count_set (b := b) found
  by_cases enough : other.count z < one.count z
  · refine ⟨one.set i b, z, List.length_set, fun j => ?_, enough, moved⟩
    by_cases same : i = j
    · subst same
      exact .inr ((List.getElem?_set_self (List.getElem?_eq_some_iff.1 found).1).trans there.symm)
    · exact .inl (List.getElem?_set_ne same)
  · have left := moved z
    rw [if_pos rfl, if_neg differ.symm] at left
    have closer := differences_set found there differ
    have fewerLeft : (one.set i b).count z < other.count z := by omega
    obtain ⟨bins, last, length, between, more, counts⟩ :=
      exists_exchange (List.length_set.trans lengths) fewerLeft
    have lastCount := moved last
    have atZ : z ≠ last := by
      rintro rfl
      omega
    have atB : b ≠ last := by
      rintro rfl
      rw [if_neg differ, if_pos rfl] at lastCount
      omega
    refine ⟨bins, last, length.trans List.length_set, fun j => ?_, ?_, fun y => ?_⟩
    · by_cases same : i = j
      · subst same
        refine .inr ((between i).elim (fun set => set.trans ?_) id)
        exact (List.getElem?_set_self (List.getElem?_eq_some_iff.1 found).1).trans there.symm
      · rw [← List.getElem?_set_ne (l := one) (a := b) same]
        exact between j
    · rw [if_neg atZ, if_neg atB] at lastCount
      omega
    · have := counts y
      have := moved y
      omega
termination_by (differences one other).card

/-- Between two lists of bins there is one with any count of a bin between theirs. Each of its items is where one of the
    two lists has it, and all counts are between those of the two. -/
theorem exists_between {low high : List Nat} {b n : Nat} (lengths : low.length = high.length) (above : low.count b ≤ n)
    (below : n ≤ high.count b) : ∃ bins : List Nat, bins.length = low.length ∧
      (∀ i : Nat, bins[i]? = low[i]? ∨ bins[i]? = high[i]?) ∧ bins.count b = n ∧
      ∀ y, min (low.count y) (high.count y) ≤ bins.count y ∧ bins.count y ≤ max (low.count y) (high.count y) := by
  induction n, above using Nat.le_induction with
  | base => exact ⟨low, rfl, fun _ => .inl rfl, rfl, fun y => ⟨min_le_left _ _, le_max_left _ _⟩⟩
  | succ n _ ih =>
      obtain ⟨here, length, between, rfl, within⟩ := ih (by omega)
      obtain ⟨bins, z, lengthNext, next, more, count⟩ := exists_exchange (length.trans lengths) below
      have atZ : z ≠ b := by
        rintro rfl
        omega
      refine ⟨bins, lengthNext.trans length, fun i => ?_, by simpa [atZ] using count b, fun y => ?_⟩
      · rcases next i with same | same
        · exact (between i).imp same.trans same.trans
        · exact .inr same
      · have counted := count y
        obtain ⟨least, most⟩ := within y
        split_ifs at counted with isZ isB isB
        · exact absurd (isZ.trans isB.symm) atZ
        · subst isZ
          omega
        · subst isB
          omega
        · omega

/-- What holds of each item at its place in both lists holds of it between them. -/
theorem forall₂_between {α : Type} {R : Nat → α → Prop} {low high bins : List Nat} {as : List α}
    (first : List.Forall₂ R low as) (last : List.Forall₂ R high as) (length : bins.length = low.length)
    (between : ∀ i : Nat, bins[i]? = low[i]? ∨ bins[i]? = high[i]?) : List.Forall₂ R bins as := by
  refine List.forall₂_iff_get.2 ⟨length.trans first.length_eq, fun i inside small => ?_⟩
  have item := List.getElem?_eq_getElem inside
  have insideHigh : i < high.length := last.length_eq ▸ small
  rcases between i with same | same
  · rw [item, List.getElem?_eq_getElem (length ▸ inside)] at same
    rw [List.get_eq_getElem, Option.some.inj same]
    exact first.get (length ▸ inside) small
  · rw [item, List.getElem?_eq_getElem insideHigh] at same
    rw [List.get_eq_getElem, Option.some.inj same]
    exact last.get insideHigh small

theorem Placement.exists_count {t : Transportation} {low high : List Nat} (first : Placement t low)
    (last : Placement t high) {b n : Nat} (above : low.count b ≤ n) (below : n ≤ high.count b) :
    ∃ bins, Placement t bins ∧ bins.count b = n := by
  obtain ⟨bins, length, between, count, within⟩ :=
    exists_between (first.length_eq.trans last.length_eq.symm) above below
  refine ⟨bins, ⟨forall₂_between first.allowed last.allowed length between, fun y inside => ?_⟩, count⟩
  obtain ⟨least, most⟩ := within y
  have lowBounds := first.counts y inside
  have highBounds := last.counts y inside
  omega

end StatBounds.Transportation
