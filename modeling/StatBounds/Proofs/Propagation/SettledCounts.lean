import StatBounds.Proofs.BinCount.Exchange
import StatBounds.Proofs.Propagation.Fixed
import StatBounds.Proofs.Propagation.MonotoneCounts

/-! # What settled bin counts tell

Bin counts that have nothing left to do have no value left without a feasible assignment: one that puts the item in
the bin of the value, or one with as many items in the bin as the count says.
-/

namespace StatBounds

open Binary64 (value ofInt)

theorem between_of_countRangeOf {d : Domain} {items : Nat} {range : Nat × Nat} (few : items < 2 ^ 53)
    (read : countRangeOf items d = some range) : ∃ s : IntSet, ∃ least ∈ s.values, ∃ greatest ∈ s.values,
      d = .finite s ∧ ∀ count ≤ items, range.1 ≤ count → count ≤ range.2 → least ≤ count ∧ count ≤ greatest := by
  cases d with
  | real r => simp [countRangeOf] at read
  | finite s =>
      by_cases some : ∃ n, n ∈ s.values
      · obtain ⟨n, member⟩ := some
        obtain ⟨least, greatest, first, last⟩ := IntSet.exists_extremes member
        refine ⟨s, least, List.mem_of_mem_head? first, greatest, List.mem_of_getLast? last, rfl,
          fun count small low high => ?_⟩
        obtain ⟨lo, hi, rfl, nonneg, order, lower, upper⟩ := range_of_countRangeOf first last read
        have exact : |(count : Int)| < 2 ^ 53 := by
          rw [Nat.abs_cast]
          omega
        have reading := Binary64.value_ofInt_exact exact.le
        constructor
        · refine Binary64.ge_of_value_ofInt_ge exact ?_
          have above : (lo : ℝ) ≤ (count : Int) := by exact_mod_cast (by omega : lo ≤ count)
          rw [reading]
          exact ((le_max_left _ _).trans lower.le).trans (by exact_mod_cast above)
        · refine Binary64.le_of_value_ofInt_le exact ?_
          have below : ((count : Int) : ℝ) ≤ hi := by exact_mod_cast (by omega : count ≤ hi)
          rw [reading]
          exact (EReal.coe_le_coe_iff.2 below).trans (upper.ge.trans (min_le_left _ _))
      · have none : s.values = [] := List.eq_nil_iff_forall_not_mem.2 fun n member => some ⟨n, member⟩
        have unread : Binary64.toInt? (Binary64.larger Interval.empty.lo 0.0) = Option.none := by decide
        simp [countRangeOf, IntSet.hull, IntSet.min?, none, unread] at read

namespace BinCount

variable {c : BinCount} {vars : Variables} {domains : List Domain} {ranges : List (Nat × Nat)} {placed : List Nat}
  {i b : Nat} {v : Var} {n : Int}

/-- The domains of the items and the ranges of the counts are what the variables have. -/
structure Reads (c : BinCount) (vars : Variables) (domains : List Domain) (ranges : List (Nat × Nat)) : Prop where
  items : List.Forall₂ (fun v (d : Domain) => ∃ x, vars.get? v = some x ∧ x.domain = d) c.items domains
  counts : List.Forall₂ (fun v range => ∃ x, vars.get? v = some x ∧ countRangeOf c.items.length x.domain = some range)
    c.counts ranges

theorem ensures_filtered : Ensures c.filtered vars (fun out after => after = vars ∧
    ∃ domains ranges, c.Reads vars domains ranges ∧ c.filter.filter domains ranges = .ok out) fun _ _ => True := by
  have readItems : Ensures (c.items.mapM fun v => return (← Variables.fetch v).domain) vars
      (fun domains after => after = vars ∧
        List.Forall₂ (fun v (d : Domain) => ∃ x, vars.get? v = some x ∧ x.domain = d) c.items domains)
      fun _ _ => True := by
    refine ensures_mapM (fun v _ s same => ?_) rfl
    subst same
    exact ensures_bind.2 (ensures_fetch (fun x found => ⟨rfl, x, found, rfl⟩) fun _ => trivial)
  have readCounts : Ensures (c.counts.mapM c.readRange) vars
      (fun ranges after => after = vars ∧ List.Forall₂ (fun v range =>
        ∃ x, vars.get? v = some x ∧ countRangeOf c.items.length x.domain = some range) c.counts ranges)
      fun _ _ => True := by
    refine ensures_mapM (fun v _ s same => ?_) rfl
    subst same
    refine ensures_bind.2 (ensures_fetch (fun x found => ?_) fun _ => trivial)
    cases read : countRangeOf c.items.length x.domain with
    | none => exact trivial
    | some range => exact ⟨rfl, x, found, read⟩
  refine ensures_bind.2 (readItems.mono (fun domains after ⟨same, items⟩ => ?_) fun _ _ _ => trivial)
  subst same
  refine ensures_bind.2 (readCounts.mono (fun ranges after ⟨same, counts⟩ => ?_) fun _ _ _ => trivial)
  subst same
  cases outcome : c.filter.filter domains ranges with
  | error failure => exact trivial
  | ok out => exact ⟨rfl, domains, ranges, ⟨items, counts⟩, outcome⟩

/-- An item whose bin is given has a value in the bin, if the bin begins before it ends. -/
theorem Reads.exists_canBe (reads : c.Reads vars domains ranges) (feasible : c.filter.Feasible domains ranges placed)
    (proper : ∀ bin ∈ c.filter.bins, bin.Proper) (finite : vars.FiniteOn (· ∈ c.items))
    (item : c.items[i]? = some v) : ∃ (b : Nat) (bin : Bin) (n : Int),
      placed[i]? = some b ∧ c.filter.bins[b]? = some bin ∧ vars.CanBe v n ∧ bin.contains (ofInt n) = true := by
  obtain ⟨inside, rfl⟩ := List.getElem?_eq_some_iff.1 item
  have inDomains : i < domains.length := reads.items.length_eq ▸ inside
  have inPlaced : i < placed.length := feasible.met.length_eq ▸ inDomains
  obtain ⟨x, found, domain⟩ := reads.items.get inside inDomains
  obtain ⟨bin, there, meets⟩ := feasible.met.get inPlaced inDomains
  have reaches := (Domain.meets_iff_reaches (proper bin (List.mem_of_getElem? there))).1 meets
  rw [← domain] at reaches
  have integral := finite _ x (List.getElem_mem inside) found
  cases domain' : x.domain with
  | real r => simp [domain', Domain.isFinite] at integral
  | finite s =>
      rw [domain'] at reaches
      obtain ⟨n, member, low, high⟩ := reaches
      exact ⟨_, bin, n, List.getElem?_eq_getElem inPlaced, there, ⟨x, s, found, domain', member⟩, by
        simp [Bin.contains, low, high]⟩

theorem Reads.between (reads : c.Reads vars domains ranges) (feasible : c.filter.Feasible domains ranges placed)
    (few : c.items.length < 2 ^ 53) (there : c.counts[b]? = some v) : ∃ least greatest, vars.CanBe v least ∧
      vars.CanBe v greatest ∧ least ≤ placed.count b ∧ placed.count b ≤ greatest := by
  obtain ⟨inside, rfl⟩ := List.getElem?_eq_some_iff.1 there
  have inRanges : b < ranges.length := reads.counts.length_eq ▸ inside
  obtain ⟨x, found, read⟩ := reads.counts.get inside inRanges
  obtain ⟨s, least, isLeast, greatest, isGreatest, domain, between⟩ := between_of_countRangeOf few read
  have ⟨low, high⟩ := feasible.counted b _ (List.getElem?_eq_getElem inRanges)
  have small : placed.count b ≤ c.items.length := by
    rw [reads.items.length_eq, ← feasible.met.length_eq]
    exact List.count_le_length
  exact ⟨least, greatest, ⟨x, s, found, domain, isLeast⟩, ⟨x, s, found, domain, isGreatest⟩, between _ small low high⟩

theorem of_settled (finite : vars.FiniteOn (· ∈ c.scope)) (settled : (Constraint.binCount c).Settled vars) :
    ∃ domains ranges out, c.Reads vars domains ranges ∧ c.filter.filter domains ranges = .ok out ∧
      (∀ entry ∈ c.items.zip out.items, discard (Variables.restrict entry.1 entry.2) vars = .ok ⟨⟩ vars) ∧
      ∀ entry ∈ c.counts.zip out.counts, discard (Variables.narrow entry.1
        (.ofBounds (Binary64.ofNat entry.2.1) (Binary64.ofNat entry.2.2))) vars = .ok ⟨⟩ vars := by
  have narrowItems (out : Filtered) : ∀ entry ∈ c.items.zip out.items,
      Local (· ∈ c.scope) (discard (Variables.restrict entry.1 entry.2)) :=
    fun entry member => (Local.restrict (List.mem_append_left _ (List.of_mem_zip member).1) _).discard
  have narrowCounts (out : Filtered) : ∀ entry ∈ c.counts.zip out.counts, Local (· ∈ c.scope)
      (discard (Variables.narrow entry.1 (.ofBounds (Binary64.ofNat entry.2.1) (Binary64.ofNat entry.2.2)))) :=
    fun entry member => (Local.narrow (List.mem_append_right _ (List.of_mem_zip member).1) _).discard
  obtain ⟨out, filtered, rest⟩ := (Local.filtered fun _ => id).quiet_bind
    (fun out => (Local.forM (narrowItems out)).bind fun _ => .forM (narrowCounts out)) finite settled
  obtain ⟨_, items, counts⟩ := (Local.forM (narrowItems out)).quiet_bind (fun _ => .forM (narrowCounts out)) finite rest
  have told : Ensures c.filtered vars _ _ := ensures_filtered
  rw [Ensures, filtered] at told
  obtain ⟨-, domains, ranges, reads, succeeds⟩ := told
  exact ⟨domains, ranges, out, reads, succeeds, Local.quiet_forM (narrowItems out) finite items,
    Local.quiet_forM (narrowCounts out) finite counts⟩

/-- A variable that cannot be restricted any more has its values in the bins that are given to it. -/
theorem exists_given_of_quiet {given : Bin → Prop} {d left : Domain} (reads : ∃ x, vars.get? v = some x ∧ x.domain = d)
    (leaves : BinCountFilter.Leaves given d left) (canBe : vars.CanBe v n)
    (quiet : discard (Variables.restrict v left) vars = .ok ⟨⟩ vars) :
    ∃ bin, given bin ∧ bin.contains (ofInt n) = true := by
  obtain ⟨x, s, found, domain, member⟩ := canBe
  obtain ⟨y, found', same⟩ := reads
  obtain rfl := Option.some.inj (found.symm.trans found')
  obtain rfl := domain.symm.trans same
  cases left with
  | real r => exact leaves.elim
  | finite t =>
      have proper : (Domain.finite t).Proper := trivial
      have obeys := (narrows_restrict v proper).discard.of_quiet found (domain ▸ trivial) quiet
      rw [domain] at obeys
      have kept := obeys n member
      rw [IntSet.contains, List.contains_iff_mem] at kept
      exact ((leaves n).1 kept).2

/-- A variable that cannot be narrowed to a range of small numbers any more has its values in the range. -/
theorem mem_range_of_quiet {lo hi : Nat} (small : lo < 2 ^ 53) (small' : hi < 2 ^ 53) (canBe : vars.CanBe v n)
    (quiet : discard (Variables.narrow v (.ofBounds (Binary64.ofNat lo) (Binary64.ofNat hi))) vars = .ok ⟨⟩ vars) :
    lo ≤ n ∧ n ≤ hi := by
  obtain ⟨x, s, found, domain, member⟩ := canBe
  have within := within_of_quiet (Interval.proper_ofBounds _ _) found domain quiet
  have encloses := within.encloses (IntSet.encloses_hull member)
  rw [Binary64.ofNat, Binary64.ofNat,
    Interval.ofBounds_of_isNumber (Binary64.isNumber_ofInt _) (Binary64.isNumber_ofInt _)] at encloses
  have exact {k : Nat} (small : k < 2 ^ 53) : |(k : Int)| < 2 ^ 53 := by
    rw [Nat.abs_cast]
    exact_mod_cast small
  constructor
  · refine Binary64.le_of_value_ofInt_le (exact small) ?_
    simpa using encloses.lower
  · refine Binary64.ge_of_value_ofInt_ge (exact small') ?_
    simpa using encloses.upper

/-- Settled bin counts have a feasible assignment for each value that is left of an item or a count. -/
theorem supports_of_settled (few : c.items.length < 2 ^ 53) (finite : vars.FiniteOn (· ∈ c.scope))
    (settled : (Constraint.binCount c).Settled vars) : ∃ domains ranges, c.Reads vars domains ranges ∧
      (∃ placed, c.filter.Feasible domains ranges placed) ∧
      (∀ (i : Nat) v n, c.items[i]? = some v → vars.CanBe v n →
        ∃ bin, c.filter.Gives domains ranges i bin ∧ bin.contains (ofInt n) = true) ∧
      ∀ (b : Nat) v n, c.counts[b]? = some v → vars.CanBe v n →
        ∃ placed, c.filter.Feasible domains ranges placed ∧ (placed.count b : Int) = n := by
  obtain ⟨domains, ranges, out, reads, succeeds, items, counts⟩ := of_settled finite settled
  have length := reads.items.length_eq
  obtain ⟨exact, feasible⟩ := BinCountFilter.exact_of_filter (length ▸ few.trans (by norm_num)) succeeds
  refine ⟨domains, ranges, reads, feasible, fun i v n found canBe => ?_, fun b v n found canBe => ?_⟩
  · obtain ⟨inside, rfl⟩ := List.getElem?_eq_some_iff.1 found
    have inDomains : i < domains.length := length ▸ inside
    have inOut : i < out.items.length := exact.sameItems.symm ▸ inDomains
    have left := List.getElem?_eq_getElem inOut
    have quiet := items (c.items[i], out.items[i]) (List.mem_of_getElem? (List.getElem?_zip_eq_some.2 ⟨found, left⟩))
    exact exists_given_of_quiet (reads.items.get inside inDomains)
      (exact.leaves i _ _ (List.getElem?_eq_getElem inDomains) left) canBe quiet
  · obtain ⟨inside, rfl⟩ := List.getElem?_eq_some_iff.1 found
    have inOut : b < out.counts.length := exact.sameCounts ▸ reads.counts.length_eq ▸ inside
    have range := List.getElem?_eq_getElem inOut
    obtain ⟨low, lowFeasible, least⟩ := (exact.least b _ range).1
    obtain ⟨high, highFeasible, greatest⟩ := (exact.greatest b _ range).1
    have small {placed : List Nat} (feasible : c.filter.Feasible domains ranges placed) : placed.count b < 2 ^ 53 :=
      (List.count_le_length.trans_eq (feasible.met.length_eq.trans length.symm)).trans_lt few
    have quiet := counts (c.counts[b], out.counts[b])
      (List.mem_of_getElem? (List.getElem?_zip_eq_some.2 ⟨found, range⟩))
    obtain ⟨above, below⟩ := mem_range_of_quiet (least ▸ small lowFeasible) (greatest ▸ small highFeasible) canBe quiet
    obtain ⟨m, rfl⟩ := Int.eq_ofNat_of_zero_le ((Int.natCast_nonneg _).trans above)
    obtain ⟨placed, feasible, same⟩ := lowFeasible.exists_count highFeasible (least.trans_le (by exact_mod_cast above))
      ((by exact_mod_cast below : m ≤ out.counts[b].2).trans_eq greatest.symm)
    exact ⟨placed, feasible, by exact_mod_cast same⟩

end BinCount

end StatBounds
