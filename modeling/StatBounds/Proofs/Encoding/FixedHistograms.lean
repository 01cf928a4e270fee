import StatBounds.Proofs.Encoding.Histograms

/-! # Histograms of fixed items

For fixed items the propagation of a histogram is a decision: it succeeds exactly if every item lies in one bin and
the counts can be what they are to be, and then it has fixed them.
-/

namespace StatBounds

variable {σ : Assignment} {kind : SeriesKind} {name : String} {series counts : List Var} {bins : List Bin}
  {store after last : Store} {batches : List Store}

open Classical in
/-- The counts with the numbers of items in their bins. -/
noncomputable def tallies (series : List Var) (bins : List Bin) (counts : List Var) (σ : Assignment) :
    List (Var × Nat) :=
  (bins.zip counts).map fun entry => (entry.2, series.countP fun v => entry.1.Has (σ v).reading)

theorem map_fst_tallies (lengths : counts.length = bins.length) :
    (tallies series bins counts σ).map Prod.fst = counts := by
  rw [tallies, List.map_map]
  exact List.map_snd_zip lengths.le

theorem le_of_mem_tallies {entry : Var × Nat} (member : entry ∈ tallies series bins counts σ) :
    entry.2 ≤ series.length := by
  obtain ⟨_, -, rfl⟩ := List.mem_map.1 member
  exact List.countP_le_length

open Classical in
theorem forall_mem_tallies_iff {p : Var × Nat → Prop} : (∀ entry ∈ tallies series bins counts σ, p entry) ↔
    ∀ (b : Nat) (bin : Bin) (count : Var), bins[b]? = some bin → counts[b]? = some count →
      p (count, series.countP fun v => bin.Has (σ v).reading) := by
  constructor
  · intro each b bin count found there
    have paired := List.mem_of_getElem? (List.getElem?_zip_eq_some.2 ⟨found, there⟩ :
      (bins.zip counts)[b]? = some (bin, count))
    exact each _ (List.mem_map.2 ⟨_, paired, rfl⟩)
  · intro each entry member
    obtain ⟨⟨bin, count⟩, paired, rfl⟩ := List.mem_map.1 member
    obtain ⟨b, both⟩ := List.mem_iff_getElem?.1 paired
    rw [List.getElem?_zip_eq_some] at both
    exact each b bin count both.1 both.2

namespace Store

/-- A propagation that succeeds has found every item in one bin, and has fixed the counts. -/
theorem fixes_tallies (none : store.constraints = #[]) (fewItems : series.length < 2 ^ 20)
    (fewBins : bins.length < 2 ^ 20) (items : ∀ v ∈ series, store.vars.FixedTo σ v)
    (totals : ∀ v ∈ counts, store.vars.HasValues v)
    (ran : encodeHistogram kind name series bins counts store = .ok () after) (reachable : Reachable batches after)
    (propagated : propagate after = .ok () last) (uncapped : after.propagation.ending ≠ .capped) :
    (∀ v ∈ series, Bin.InOne bins (σ v).reading) ∧ ∀ entry ∈ tallies series bins counts σ,
      last.vars.Fixes entry.1 entry.2 ∧ store.vars.CanBe entry.1 entry.2 := by
  classical
  have encodes := encodes_encodeHistogram ran
  have has : ∀ v ∈ series ++ counts, store.vars.HasValues v := by
    intro v member
    rcases List.mem_append.1 member with item | total
    · obtain ⟨n, -, fixes⟩ := items v item
      exact fixes.canBe.hasValues
    · exact totals v total
  obtain ⟨settled, leaves⟩ := encodes.settled none reachable has propagated uncapped
  have fixed (v : Var) (member : v ∈ series) : last.vars.FixedTo σ v :=
    leaves.fixedTo (encodes.extended.fixedTo (index_lt_of_hasValues (has v (List.mem_append_left _ member)))
      (items v member))
  have indicator {i b : Nat} {v : Var} {bin : Bin} (item : series[i]? = some v) (found : bins[b]? = some bin) :
      last.vars.Fixes (gridVar store.vars.size bins.length i b)
        ((if bin.Has (σ v).reading then 1 else 0 : Nat) : Int) := by
    have member : Constraint.reified _ ∈ histogramConstraints kind store.vars.size series bins counts :=
      mem_histogramConstraints_iff.2 (.inl ⟨i, v, b, bin, item, found, rfl⟩)
    refine encodes.fixes_indicator none reachable.invariant.1 leaves member (settled _ member).1 (fun a tested => ?_)
      SeriesKind.membership_iff
    rw [SeriesKind.var_of_mem_membership tested]
    exact fixed v (List.mem_of_getElem? item)
  constructor
  · intro v member
    obtain ⟨i, item⟩ := List.mem_iff_getElem?.1 member
    have row := (settled _ (mem_histogramConstraints_iff.2 (.inr (.inl
      ⟨i, (List.getElem?_eq_some_iff.1 item).1, rfl⟩)))).1
    have few : (bins.countP fun bin => bin.Has (σ v).reading) ≤ bins.length := List.countP_le_length
    have one := Formula.sum_eq_one row (Variables.fixesAll_range fun b bin found => indicator item found)
      (by simpa using fewBins.le) (by rw [← countP_decide_eq_sum]; omega)
    rw [← countP_decide_eq_sum] at one
    exact Bin.inOne_iff_countP.2 one
  · rw [forall_mem_tallies_iff]
    intro b bin count found there
    obtain ⟨column, finite⟩ := settled _ (mem_histogramConstraints_iff.2 (.inr (.inr ⟨b, count, there, rfl⟩)))
    have few : (series.countP fun v => bin.Has (σ v).reading) ≤ series.length := List.countP_le_length
    have known := totals count (List.mem_of_getElem? there)
    have same := encodes.extended.hasValues_iff (index_lt_of_hasValues known)
    obtain ⟨has, older⟩ := leaves count (same.2 known)
    have total := Sum.fixes_total finite column (Variables.fixesAll_range fun i v item => indicator item found)
      (by simpa using fewItems.le) (by rw [← countP_decide_eq_sum]; omega) has
    rw [← countP_decide_eq_sum] at total
    exact ⟨total, (encodes.extended.canBe_iff (index_lt_of_hasValues known)).1 (older _ total.canBe)⟩

/-- If every item lies in one bin and the counts can be right, then the propagation does not fail. -/
theorem exists_propagate_histogram (none : store.constraints = #[]) (distinct : counts.Nodup)
    (few : series.length < 2 ^ 20) (items : ∀ v ∈ series, store.vars.FixedTo σ v)
    (ran : encodeHistogram kind name series bins counts store = .ok () after) (reachable : Reachable batches after)
    (inOne : ∀ v ∈ series, Bin.InOne bins (σ v).reading)
    (canBe : ∀ entry ∈ tallies series bins counts σ, store.vars.CanBe entry.1 entry.2) :
    ∃ last, propagate after = .ok () last := by
  obtain ⟨lengths, -, known, totals, extended⟩ := extends_encodeHistogram ran
  have keys : (tallies series bins counts σ).map Prod.fst = counts := map_fst_tallies lengths
  have choices : ∀ entry ∈ tallies series bins counts σ, ∃ c, store.Allows entry.1 c ∧ c.reading = entry.2 :=
    fun entry member => exists_allows (canBe entry member) (by
      have small := le_of_mem_tallies member
      omega)
  obtain ⟨τ, others, suits⟩ := Assignment.exists_entries (σ := σ) (keys.symm ▸ distinct) choices
  rw [keys] at others
  have total (v : Var) (member : v ∈ counts) : store.Allows v (τ v) := by
    rw [← keys] at member
    obtain ⟨entry, listed, rfl⟩ := List.mem_map.1 member
    exact (suits entry listed).1
  -- A count may be an item at the same time, and is fixed then.
  have item (v : Var) (member : v ∈ series) : τ v = σ v := by
    by_cases counted : v ∈ counts
    · exact (total v counted).eq_of_fixedTo (items v member)
    · exact others v counted
  have tallied : Tallied series bins counts τ := by
    refine ⟨fun v member => item v member ▸ inOne v member, fun b bin count found there => ?_⟩
    rw [(forall_mem_tallies_iff.1 suits b bin count found there).2]
    refine congrArg Nat.cast (List.countP_congr fun v member => ?_)
    rw [item v member]
  obtain ⟨ρ, same, solves⟩ := (exists_solves_histogram_iff ran).1.2 tallied
  refine (encodes_encodeHistogram ran).exists_propagate none reachable.invariant.1 solves fun v member => ?_
  rcases List.mem_append.1 member with inSeries | inCounts
  · rw [same v (extended.contains_eq (known v inSeries)), item v inSeries]
    exact allows_of_fixedTo (items v inSeries)
  · rw [same v (extended.contains_eq (totals v inCounts))]
    exact total v inCounts

end Store

end StatBounds
