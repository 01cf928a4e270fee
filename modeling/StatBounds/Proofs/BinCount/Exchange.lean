import StatBounds.Proofs.BinCount.Exactness
import StatBounds.Proofs.Transport.Exchange

/-! # Counts between those of two assignments

With two feasible assignments of items to bins, all counts of a bin between theirs are feasible.
-/

namespace StatBounds.BinCountFilter

open Transportation (exists_between forall₂_between)

variable {f : BinCountFilter} {items : List Domain} {counts : List (Nat × Nat)}

theorem Feasible.exists_count {low high : List Nat} (first : f.Feasible items counts low)
    (last : f.Feasible items counts high) {b n : Nat} (above : low.count b ≤ n) (below : n ≤ high.count b) :
    ∃ bins, f.Feasible items counts bins ∧ bins.count b = n := by
  obtain ⟨bins, length, between, count, within⟩ :=
    exists_between (first.met.length_eq.trans last.met.length_eq.symm) above below
  refine ⟨bins, ⟨forall₂_between first.met last.met length between, fun y range found => ?_⟩, count⟩
  obtain ⟨least, most⟩ := within y
  have lowBounds := first.counted y range found
  have highBounds := last.counted y range found
  omega

end StatBounds.BinCountFilter
