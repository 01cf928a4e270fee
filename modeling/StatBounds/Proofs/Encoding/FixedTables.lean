import StatBounds.Proofs.Encoding.FixedHistograms
import StatBounds.Proofs.Encoding.TableCounts

/-! # Tables of fixed samples

For fixed samples none of which belongs to two cells, the propagation of a table is a decision: it succeeds exactly if
every entry can be what the samples make it, and then it has fixed all entries and indicators.
-/

namespace StatBounds

open ContingencyTable (InCell)

variable {σ : Assignment} {kind : SeriesKind} {name : String} {t : ContingencyTable} {bins : ContingencyBins}
  {store after last : Store} {batches : List Store}

namespace Store

/-! ## The constraints of a table -/

def sampleTest (kind : SeriesKind) (first samples columns i j s : Nat) (row column : Bin) (sample : Var × Var) :
    Reified where
  indicator := gridVar first samples (i * columns + j) s
  atoms := kind.membership sample.1 row ++ kind.membership sample.2 column

def cellSum (first samples columns i j : Nat) (count : Var) : Sum where
  terms := (List.range samples).map (gridVar first samples (i * columns + j))
  total := count

theorem mem_tableConstraints_iff (fits : t.Fits bins) {c : Constraint} : c ∈ tableConstraints kind store t bins ↔
    (∃ i j s row column sample, bins.rows[i]? = some row ∧ bins.columns[j]? = some column ∧
      t.samples[s]? = some sample ∧ c = .reified (sampleTest kind store.vars.size t.samples.length bins.columns.length
        i j s row column sample)) ∨
    (∃ i j row column counts v, bins.rows[i]? = some row ∧ bins.columns[j]? = some column ∧
      t.cells[i]? = some counts ∧ counts[j]? = some v ∧
      c = .sum (cellSum store.vars.size t.samples.length bins.columns.length i j v)) ∨
    (∃ s sample, t.samples[s]? = some sample ∧ c = tableSample store bins t.samples.length (sample, s)) ∨
    (∃ (i : Nat) (counts : List Var) (v : Var), t.cells[i]? = some counts ∧ t.rowMarginals[i]? = some v ∧
      c = .sum { terms := counts, total := v }) ∨
    ∃ (j : Nat) (v : Var), t.columnMarginals[j]? = some v ∧ c = .sum { terms := t.column j, total := v } := by
  simp only [tableConstraints, tableCells, tableCell, List.mem_append, List.mem_flatMap, List.mem_map,
    List.mem_singleton, Prod.exists, List.mem_zipIdx_iff_getElem?, mem_zip_zipIdx_iff]
  simp only [mem_zip_iff]
  constructor
  · rintro (⟨row, i, counts, ⟨inRows, inCells⟩, column, j, v, ⟨inColumns, inCounts⟩, ⟨x, y, s, found, rfl⟩ | rfl⟩ |
      ⟨x, y, s, found, rfl⟩ | ⟨counts, v, ⟨i, inCells, inMarginals⟩, rfl⟩ | ⟨v, j, found, rfl⟩)
    · exact .inl ⟨i, j, s, row, column, x, y, inRows, inColumns, found, rfl⟩
    · exact .inr (.inl ⟨i, j, row, column, counts, v, inRows, inColumns, inCells, inCounts, rfl⟩)
    · exact .inr (.inr (.inl ⟨s, x, y, found, rfl⟩))
    · exact .inr (.inr (.inr (.inl ⟨i, counts, v, inCells, inMarginals, rfl⟩)))
    · exact .inr (.inr (.inr (.inr ⟨j, v, found, rfl⟩)))
  · rintro (⟨i, j, s, row, column, x, y, inRows, inColumns, found, rfl⟩ |
      ⟨i, j, row, column, counts, v, inRows, inColumns, inCells, inCounts, rfl⟩ | ⟨s, x, y, found, rfl⟩ |
      ⟨i, counts, v, inCells, inMarginals, rfl⟩ | ⟨j, v, found, rfl⟩)
    · obtain ⟨counts, inCells⟩ := exists_getElem? fits.rows.symm inRows
      obtain ⟨v, inCounts⟩ := exists_getElem? (fits.columns counts (List.mem_of_getElem? inCells)).symm inColumns
      exact .inl ⟨row, i, counts, ⟨inRows, inCells⟩, column, j, v, ⟨inColumns, inCounts⟩, .inl ⟨x, y, s, found, rfl⟩⟩
    · exact .inl ⟨row, i, counts, ⟨inRows, inCells⟩, column, j, v, ⟨inColumns, inCounts⟩, .inr rfl⟩
    · exact .inr (.inl ⟨x, y, s, found, rfl⟩)
    · exact .inr (.inr (.inl ⟨counts, v, ⟨i, inCells, inMarginals⟩, rfl⟩))
    · exact .inr (.inr (.inr ⟨v, j, found, rfl⟩))

theorem mem_entryVars_of_cell {i j : Nat} {counts : List Var} {v : Var} (inCells : t.cells[i]? = some counts)
    (inCounts : counts[j]? = some v) : v ∈ t.entryVars :=
  List.mem_append_left _ (List.mem_flatten.2 ⟨counts, List.mem_of_getElem? inCells, List.mem_of_getElem? inCounts⟩)

theorem encodes_encodeContingency (ran : encodeContingency kind name t bins store = .ok () after) :
    store.Encodes after (tableNames name t bins) (t.first ++ t.second ++ t.entryVars)
      (tableConstraints kind store t bins) := by
  obtain ⟨checks, extended⟩ := extends_encodeContingency ran
  have grid (cell s : Nat) : store.vars.size ≤ (gridVar store.vars.size t.samples.length cell s).index := by
    rw [gridVar, Nat.add_assoc]
    exact Nat.le_add_right _ _
  have sums (terms : List Var) (total : Var) (known : ∀ v ∈ terms, v ∈ t.entryVars ∨ store.vars.size ≤ v.index)
      (entry : total ∈ t.entryVars) : ∀ v ∈ (Constraint.sum { terms, total }).scope,
        v ∈ t.first ++ t.second ++ t.entryVars ∨ store.vars.size ≤ v.index := by
    intro v inScope
    rcases List.mem_append.1 inScope with term | here
    · exact (known v term).imp_left (List.mem_append_right _)
    · exact .inl (List.mem_append_right _ (List.mem_singleton.1 here ▸ entry))
  refine ⟨extended, fun c member => ?_, fun c member => ?_, fun r member => ?_⟩
  · rcases (mem_tableConstraints_iff checks.fits).1 member with ⟨i, j, s, row, column, sample, -, -, -, rfl⟩ |
      ⟨i, j, row, column, counts, v, -, -, -, -, rfl⟩ | ⟨s, sample, -, rfl⟩ | ⟨i, counts, v, -, -, rfl⟩ | ⟨j, v, -, rfl⟩
    · trivial
    · trivial
    · exact ⟨_, _, rfl⟩
    · trivial
    · trivial
  · rcases (mem_tableConstraints_iff checks.fits).1 member with ⟨i, j, s, row, column, sample, -, -, found, rfl⟩ |
      ⟨i, j, row, column, counts, v, -, -, inCells, inCounts, rfl⟩ | ⟨s, sample, -, rfl⟩ |
      ⟨i, counts, v, inCells, inMarginals, rfl⟩ | ⟨j, v, found, rfl⟩
    · intro v inScope
      have both := List.of_mem_zip (List.mem_of_getElem? found)
      rcases List.mem_append.1 inScope with tested | indicator
      · obtain ⟨a, inAtoms, rfl⟩ := List.mem_map.1 tested
        refine .inl (List.mem_append_left _ ?_)
        rcases List.mem_append.1 inAtoms with first | second
        · exact List.mem_append_left _ (SeriesKind.var_of_mem_membership first ▸ both.1)
        · exact List.mem_append_right _ (SeriesKind.var_of_mem_membership second ▸ both.2)
      · exact .inr (List.mem_singleton.1 indicator ▸ grid _ s)
    · refine sums _ _ (fun v term => ?_) (mem_entryVars_of_cell inCells inCounts)
      obtain ⟨s, -, rfl⟩ := List.mem_map.1 term
      exact .inr (grid _ s)
    · intro v inScope
      obtain ⟨i, -, inRow⟩ := List.mem_flatMap.1 (mem_scope_sumOf inScope)
      obtain ⟨j, -, rfl⟩ := List.mem_map.1 inRow
      exact .inr (grid _ s)
    · refine sums _ _ (fun w term => ?_) ?_
      · obtain ⟨j, found⟩ := List.mem_iff_getElem?.1 term
        exact .inl (mem_entryVars_of_cell inCells found)
      · exact List.mem_append_right _ (List.mem_append_left _ (List.mem_of_getElem? inMarginals))
    · refine sums _ _ (fun w term => ?_) ?_
      · obtain ⟨counts, inCells, inCounts⟩ := List.mem_filterMap.1 term
        obtain ⟨i, found⟩ := List.mem_iff_getElem?.1 inCells
        exact .inl (mem_entryVars_of_cell found inCounts)
      · exact List.mem_append_right _ (List.mem_append_right _ (List.mem_of_getElem? found))
  · rcases (mem_tableConstraints_iff checks.fits).1 member with ⟨i, j, s, row, column, sample, -, -, -, same⟩ |
      ⟨i, j, row, column, counts, v, -, -, -, -, same⟩ | ⟨s, sample, -, same⟩ | ⟨i, counts, v, -, -, same⟩ |
      ⟨j, v, -, same⟩
    · exact Constraint.reified.inj same ▸ grid _ s
    · cases same
    · cases same
    · cases same
    · cases same

/-! ## Decisions -/

section

variable (none : store.constraints = #[]) (samples : ∀ v ∈ t.first ++ t.second, store.vars.FixedTo σ v)
  (entries : ∀ v ∈ t.entryVars, store.vars.HasValues v)
  (ran : encodeContingency kind name t bins store = .ok () after) (reachable : Reachable batches after)
  (propagated : propagate after = .ok () last) (uncapped : after.propagation.ending ≠ .capped)

include none samples entries ran reachable propagated uncapped

theorem settled_table : (∀ c ∈ tableConstraints kind store t bins,
    c.Settled last.vars ∧ last.vars.FiniteOn (· ∈ c.scope)) ∧ after.vars.Leaves last.vars := by
  refine (encodes_encodeContingency ran).settled none reachable (fun v member => ?_) propagated uncapped
  rcases List.mem_append.1 member with sample | entry
  · obtain ⟨n, -, fixes⟩ := samples v sample
    exact fixes.canBe.hasValues
  · exact entries v entry

open Classical in
theorem fixes_cellIndicator {i j s : Nat} {row column : Bin} {sample : Var × Var} (inRows : bins.rows[i]? = some row)
    (inColumns : bins.columns[j]? = some column) (found : t.samples[s]? = some sample) :
    last.vars.Fixes (gridVar store.vars.size t.samples.length (i * bins.columns.length + j) s)
      ((if InCell σ row column sample then 1 else 0 : Nat) : Int) := by
  obtain ⟨checks, -⟩ := extends_encodeContingency ran
  have encodes := encodes_encodeContingency ran
  obtain ⟨settled, leaves⟩ := settled_table none samples entries ran reachable propagated uncapped
  have fixed (v : Var) (member : v ∈ t.first ++ t.second) : last.vars.FixedTo σ v := by
    obtain ⟨n, -, fixes⟩ := samples v member
    exact leaves.fixedTo (encodes.extended.fixedTo (index_lt_of_hasValues fixes.canBe.hasValues) (samples v member))
  have member := (@mem_tableConstraints_iff kind t bins store checks.fits _).2
    (.inl ⟨i, j, s, row, column, sample, inRows, inColumns, found, rfl⟩)
  have both := List.of_mem_zip (List.mem_of_getElem? found)
  refine encodes.fixes_indicator none reachable.invariant.1 leaves member (settled _ member).1 (fun a tested => ?_) ?_
    (σ := σ)
  · rcases List.mem_append.1 tested with first | second
    · rw [SeriesKind.var_of_mem_membership first]
      exact fixed _ (List.mem_append_left _ both.1)
    · rw [SeriesKind.var_of_mem_membership second]
      exact fixed _ (List.mem_append_right _ both.2)
  · rw [sampleTest, List.forall_mem_append, SeriesKind.membership_iff, SeriesKind.membership_iff]
    exact Iff.rfl

/-- A sum of fixed terms has fixed the entry that is its total, to a value that the entry could have. -/
theorem fixes_entry {c : Sum} {counts : List Nat} (member : .sum c ∈ tableConstraints kind store t bins)
    (terms : last.vars.FixesAll c.terms counts) (few : c.terms.length < 2 ^ 20) (small : counts.sum < 2 ^ 20)
    (inTable : c.total ∈ t.entryVars) :
    last.vars.Fixes c.total counts.sum ∧ store.vars.CanBe c.total counts.sum := by
  have encodes := encodes_encodeContingency ran
  obtain ⟨settled, leaves⟩ := settled_table none samples entries ran reachable propagated uncapped
  have old := index_lt_of_hasValues (entries _ inTable)
  obtain ⟨values, older⟩ := leaves c.total ((encodes.extended.hasValues_iff old).2 (entries _ inTable))
  have total := Sum.fixes_total (settled _ member).2 (settled _ member).1 terms few.le (by omega) values
  exact ⟨total, (encodes.extended.canBe_iff old).1 (older _ total.canBe)⟩

theorem fixes_table (fewSamples : t.samples.length < 2 ^ 20) (fewRows : bins.rows.length < 2 ^ 20)
    (fewColumns : bins.columns.length < 2 ^ 20) (separated : t.Separated bins σ) :
    (∀ entry ∈ t.entries bins σ, last.vars.Fixes entry.1 entry.2 ∧ store.vars.CanBe entry.1 entry.2) ∧
      ∀ (i j s : Nat) (row column : Bin) (sample : Var × Var), bins.rows[i]? = some row →
        bins.columns[j]? = some column → t.samples[s]? = some sample →
        (InCell σ row column sample →
          last.vars.Fixes (gridVar store.vars.size t.samples.length (i * bins.columns.length + j) s) 1) ∧
        (¬ InCell σ row column sample →
          last.vars.Fixes (gridVar store.vars.size t.samples.length (i * bins.columns.length + j) s) 0) := by
  classical
  obtain ⟨checks, -⟩ := extends_encodeContingency ran
  have constraint {c : Constraint} := @mem_tableConstraints_iff kind t bins store checks.fits c
  have indicator {i j s : Nat} {row column : Bin} {sample : Var × Var} (inRows : bins.rows[i]? = some row)
      (inColumns : bins.columns[j]? = some column) (found : t.samples[s]? = some sample) :=
    fixes_cellIndicator none samples entries ran reachable propagated uncapped inRows inColumns found
  have entry {c : Sum} {counts : List Nat} (member : .sum c ∈ tableConstraints kind store t bins)
      (terms : last.vars.FixesAll c.terms counts) (few : c.terms.length < 2 ^ 20)
      (small : counts.sum ≤ t.samples.length) (inTable : c.total ∈ t.entryVars) :=
    fixes_entry none samples entries ran reachable propagated uncapped member terms few (small.trans_lt fewSamples)
      inTable
  obtain ⟨inCell, inRow, inColumn⟩ := ContingencyTable.forall_mem_entries_iff.1 fun entry listed =>
    (ContingencyTable.le_of_mem_entries separated listed : entry.2 ≤ t.samples.length)
  have cell {i j : Nat} {row column : Bin} {counts : List Var} {v : Var} (inRows : bins.rows[i]? = some row)
      (inColumns : bins.columns[j]? = some column) (inCells : t.cells[i]? = some counts)
      (inCounts : counts[j]? = some v) :
      last.vars.Fixes v (t.tally σ row column) ∧ store.vars.CanBe v (t.tally σ row column) := by
    have few := inCell i j row column counts v inRows inColumns inCells inCounts
    have tally : t.tally σ row column = (t.samples.map fun sample => if InCell σ row column sample then 1 else 0).sum :=
      countP_decide_eq_sum _ _
    dsimp only at few
    rw [tally] at few ⊢
    exact entry (constraint.2 (.inr (.inl ⟨i, j, row, column, counts, v, inRows, inColumns, inCells, inCounts, rfl⟩)))
      (Variables.fixesAll_range fun s sample found => indicator inRows inColumns found)
      (by simpa [cellSum] using fewSamples) few (mem_entryVars_of_cell inCells inCounts)
  -- The entries of the cells are totals of indicators, the marginals are totals of entries.
  refine ⟨ContingencyTable.forall_mem_entries_iff.2 ⟨fun i j row column counts v inRows inColumns inCells inCounts =>
    cell inRows inColumns inCells inCounts, fun i row v inRows inMarginals => ?_,
      fun j column v inColumns inMarginals => ?_⟩,
        fun i j s row column sample inRows inColumns found => ?_⟩
  · obtain ⟨counts, inCells⟩ := exists_getElem? checks.fits.rows.symm inRows
    have length := checks.fits.columns counts (List.mem_of_getElem? inCells)
    refine entry (constraint.2 (.inr (.inr (.inr (.inl ⟨i, counts, v, inCells, inMarginals, rfl⟩)))))
      (Variables.fixesAll_map length fun j w column inCounts inColumns => (cell inRows inColumns inCells inCounts).1)
      (length ▸ fewColumns) (inRow i row v inRows inMarginals) ?_
    exact List.mem_append_right _ (List.mem_append_left _ (List.mem_of_getElem? inMarginals))
  · obtain ⟨length, cells⟩ := ContingencyTable.column_eq checks.fits (List.getElem?_eq_some_iff.1 inColumns).1
    refine entry (constraint.2 (.inr (.inr (.inr (.inr ⟨j, v, inMarginals, rfl⟩)))))
      (Variables.fixesAll_map (length.trans checks.fits.rows) fun i w row there inRows => ?_)
      (length.trans checks.fits.rows ▸ fewRows) (inColumn j column v inColumns inMarginals) ?_
    · obtain ⟨counts, inCells, inCounts⟩ := cells i w there
      exact (cell inRows inColumns inCells inCounts).1
    · exact List.mem_append_right _ (List.mem_append_right _ (List.mem_of_getElem? inMarginals))
  · have fixes := indicator inRows inColumns found
    constructor
    · intro holds
      rwa [if_pos holds] at fixes
    · intro fails
      rwa [if_neg fails] at fixes

end

/-- If the entries can be what the samples make them, then the propagation does not fail. -/
theorem exists_propagate_table (none : store.constraints = #[]) (few : t.samples.length < 2 ^ 20)
    (separated : t.Separated bins σ) (distinct : t.entryVars.Nodup)
    (apart : ∀ v ∈ t.entryVars, v ∉ t.first ∧ v ∉ t.second)
    (samples : ∀ v ∈ t.first ++ t.second, store.vars.FixedTo σ v)
    (ran : encodeContingency kind name t bins store = .ok () after) (reachable : Reachable batches after)
    (canBe : ∀ entry ∈ t.entries bins σ, store.vars.CanBe entry.1 entry.2) :
    ∃ last, propagate after = .ok () last := by
  obtain ⟨checks, extended⟩ := extends_encodeContingency ran
  have choices : ∀ entry ∈ t.entries bins σ, ∃ c, store.Allows entry.1 c ∧ c.reading = entry.2 :=
    fun entry member => exists_allows (canBe entry member) (by
      have small := ContingencyTable.le_of_mem_entries separated member
      omega)
  obtain ⟨τ, others, entries, holds⟩ := ContingencyTable.exists_holds checks.fits distinct apart choices
  have sample (v : Var) (member : v ∈ t.first ++ t.second) : τ v = σ v := by
    refine others v fun entry => ?_
    rcases List.mem_append.1 member with first | second
    · exact (apart v entry).1 first
    · exact (apart v entry).2 second
  have allows (v : Var) (member : v ∈ t.first ++ t.second) : store.Allows v (τ v) := by
    rw [sample v member]
    exact allows_of_fixedTo (samples v member)
  have separated' : t.Separated bins τ := separated.congr (fun v first => sample v (List.mem_append_left _ first))
    fun v second => sample v (List.mem_append_right _ second)
  obtain ⟨ρ, same, solves⟩ := exists_solves_table separated' ran allows holds
  refine (encodes_encodeContingency ran).exists_propagate none reachable.invariant.1 solves fun v member => ?_
  rcases List.mem_append.1 member with inSamples | inTable
  · have known : store.vars.contains v = true := by
      rcases List.mem_append.1 inSamples with first | second
      · exact checks.first v first
      · exact checks.second v second
    rw [same v (extended.contains_eq known)]
    exact allows v inSamples
  · rw [same v (extended.contains_eq (checks.entries v inTable))]
    exact entries v inTable

/-- For fixed integers the propagation of an encoding in a store without other constraints is a decision. For a table
    in which no sample belongs to two cells it succeeds exactly if each cell and marginal can be the number that the
    samples make it, for a histogram exactly if each item lies in one bin and each count can be the number of items in
    its bin. If it succeeds, then it has fixed them to these numbers, and the indicators of a table to what they tell.
    Accepted bins leave no choice between cells or bins if the lower bound of each comes first. -/
theorem propagate_decides (reachable : Reachable batches store) (none : store.constraints = #[]) (σ : Assignment) :
    (∀ (kind : SeriesKind) (name : String) (t : ContingencyTable) (bins : ContingencyBins) (encoded : Store),
      t.first.length < 2 ^ 20 → bins.rows.length < 2 ^ 20 → bins.columns.length < 2 ^ 20 → t.Separated bins σ →
      (∀ v ∈ t.first ++ t.second, store.vars.FixedTo σ v) →
      t.entryVars.Nodup → (∀ v ∈ t.entryVars, v ∉ t.first ∧ v ∉ t.second) →
      (∀ v ∈ t.entryVars, store.vars.HasValues v) → encodeContingency kind name t bins store = .ok () encoded →
      encoded.propagation.ending ≠ .capped →
      ((∃ after, propagate encoded = .ok () after) ↔ ∀ entry ∈ t.entries bins σ, store.vars.CanBe entry.1 entry.2) ∧
      ∀ after, propagate encoded = .ok () after → (∀ entry ∈ t.entries bins σ, after.vars.Fixes entry.1 entry.2) ∧
        ∀ (i j s : Nat) (row column : Bin) (sample : Var × Var), bins.rows[i]? = some row →
          bins.columns[j]? = some column → t.samples[s]? = some sample →
          (InCell σ row column sample →
            after.vars.Fixes (gridVar store.vars.size t.samples.length (i * bins.columns.length + j) s) 1) ∧
          (¬ InCell σ row column sample →
            after.vars.Fixes (gridVar store.vars.size t.samples.length (i * bins.columns.length + j) s) 0)) ∧
    (∀ (t : ContingencyTable) (rows columns : List Bin) (bins : ContingencyBins),
      ContingencyBins.ofBins rows columns = .ok bins → (∀ bin ∈ rows ++ columns, bin.Proper) → t.Separated bins σ) ∧
    ∀ (kind : SeriesKind) (name : String) (series : List Var) (list : List Bin) (counts : List Var) (encoded : Store),
      series.length < 2 ^ 20 → list.length < 2 ^ 20 → (∀ v ∈ series, store.vars.FixedTo σ v) → counts.Nodup →
      (∀ v ∈ counts, store.vars.HasValues v) → encodeHistogram kind name series list counts store = .ok () encoded →
      encoded.propagation.ending ≠ .capped →
      ((∃ after, propagate encoded = .ok () after) ↔ (∀ v ∈ series, Bin.InOne list (σ v).reading) ∧
        ∀ entry ∈ tallies series list counts σ, store.vars.CanBe entry.1 entry.2) ∧
      (∀ after, propagate encoded = .ok () after →
        ∀ entry ∈ tallies series list counts σ, after.vars.Fixes entry.1 entry.2) ∧
      ((∀ bin ∈ list, bin.Proper) → ∀ v ∈ series,
        (Bin.InOne list (σ v).reading ↔ ∃ bin ∈ list, bin.Has (σ v).reading)) := by
  refine ⟨?_, fun t rows columns bins checked proper => ContingencyTable.separated_of_ofBins checked proper, ?_⟩
  · intro kind name t bins encoded fewSamples fewRows fewColumns separated samples distinct apart entries ran uncapped
    have few : t.samples.length < 2 ^ 20 := (List.length_zip.trans_le (Nat.min_le_left _ _)).trans_lt fewSamples
    have later : Reachable batches encoded := .succeeded reachable (.encodeContingency kind name t _) ran
    have fixes {after : Store} (propagated : propagate encoded = .ok () after) :=
      fixes_table none samples entries ran later propagated uncapped few fewRows fewColumns separated
    refine ⟨⟨fun ⟨after, propagated⟩ entry member => ((fixes propagated).1 entry member).2, fun canBe => ?_⟩,
      fun after propagated => ⟨fun entry member => ((fixes propagated).1 entry member).1, (fixes propagated).2⟩⟩
    exact exists_propagate_table none few separated distinct apart samples ran later canBe
  · intro kind name series list counts encoded fewItems fewBins items distinct totals ran uncapped
    have later : Reachable batches encoded := .succeeded reachable (.encodeHistogram kind name series list counts) ran
    have fixes {after : Store} (propagated : propagate encoded = .ok () after) :=
      fixes_tallies none fewItems fewBins items totals ran later propagated uncapped
    obtain ⟨-, checked, -⟩ := extends_encodeHistogram ran
    refine ⟨⟨fun ⟨after, propagated⟩ =>
      ⟨(fixes propagated).1, fun entry member => ((fixes propagated).2 entry member).2⟩, fun ⟨inOne, canBe⟩ => ?_⟩,
        fun after propagated entry member => ((fixes propagated).2 entry member).1,
        fun proper v _ => Bin.inOne_iff (Bin.pairwise_of_check proper checked)⟩
    exact exists_propagate_histogram none distinct fewItems items ran later inOne canBe

/-- One sample in a table and in a histogram, both of one bin that it lies in. -/
theorem propagate_decides_one_sample :
    let t : ContingencyTable := {
      first := [⟨0⟩], second := [⟨0⟩], cells := [[⟨1⟩]], rowMarginals := [⟨2⟩], columnMarginals := [⟨3⟩] }
    let bins : ContingencyBins := { rows := [⟨0.0, 2.0⟩], columns := [⟨0.0, 2.0⟩] }
    ∃ store encoded after encoded' after' σ, Reachable [] store ∧
      encodeContingency .continuous "t" t bins store = .ok () encoded ∧ propagate encoded = .ok () after ∧
      (∀ entry ∈ t.entries bins σ, after.vars.Fixes entry.1 entry.2) ∧
      encodeHistogram .discrete "h" [⟨0⟩] bins.rows [⟨1⟩] store = .ok () encoded' ∧
      propagate encoded' = .ok () after' ∧
      ∀ entry ∈ tallies [⟨0⟩] bins.rows [⟨1⟩] σ, after'.vars.Fixes entry.1 entry.2 := by
  intro t bins
  let entries : List (String × Int × Int) := [("a", 1, 1), ("n", 0, 1), ("r", 0, 1), ("c", 0, 1)]
  let store := fresh.ranging entries
  have reachable : Reachable [] store :=
    reachable_ranging reachable_fresh (by decide) (by decide) (by simp [fresh, Variables.empty])
  have created (name : String) (free : entries.any (·.1 == name) = false) :
      newBool name store.openBatch = .ok ⟨4⟩ (store.openBatch.extended name (.finite (.range 0 1))) :=
    newBool_openBatch (contains_ranging_fresh.trans free)
  obtain ⟨encoded, ran, ended⟩ : Leads (encodeContingency .continuous "t" t bins) store ()
      fun encoded => encoded.propagation.ending = .settled := by
    refine .check rfl (.check rfl (.check rfl (.check rfl (.check rfl (.check rfl (.batch ?_))))))
    simp only [newCells, t, bins, List.zipIdx, List.zip, List.zipWith, List.mapM_cons, List.mapM_nil, newCell,
      newIndicator, pure_bind, bind_assoc]
    refine .bind (created _ (by decide)) (leads_of_passes ?_)
    decide +kernel
  obtain ⟨encoded', ran', ended'⟩ : Leads (encodeHistogram .discrete "h" [⟨0⟩] bins.rows [⟨1⟩]) store ()
      fun encoded => encoded.propagation.ending = .settled := by
    refine .check rfl ?_
    rw [if_neg (by decide)]
    refine .check rfl (.check rfl (.batch ?_))
    simp only [List.zipIdx, List.mapM_cons, List.mapM_nil, newHistogramRow, newIndicator, pure_bind, bind_assoc, bins]
    refine .bind (created _ (by decide)) (leads_of_passes ?_)
    decide +kernel
  let σ : Assignment := fun _ => .int 1
  have fixed (vs : List Var) (only : ∀ v ∈ vs, v = ⟨0⟩) : ∀ v ∈ vs, store.vars.FixedTo σ v := by
    intro v member
    rw [only v member]
    exact ⟨1, rfl, _, _, rfl, rfl, rfl⟩
  have values (vs : List Var) (only : ∀ v ∈ vs, v = ⟨1⟩ ∨ v = ⟨2⟩ ∨ v = ⟨3⟩) : ∀ v ∈ vs, store.vars.HasValues v := by
    intro v member
    rcases only v member with rfl | rfl | rfl <;> exact ⟨_, rfl, rfl, rfl⟩
  obtain ⟨table, separated, histogram⟩ := propagate_decides reachable rfl σ
  have proper : ∀ bin ∈ bins.rows ++ bins.columns, bin.Proper := by decide +kernel
  obtain ⟨-, tableFixes⟩ := table .continuous "t" t bins encoded (by decide) (by decide) (by decide)
    (separated t _ _ bins rfl proper) (fixed _ (by decide)) (by decide) (by decide) (values _ (by decide)) ran
    (uncapped_of_settled ended)
  obtain ⟨-, histogramFixes, -⟩ := histogram .discrete "h" [⟨0⟩] bins.rows [⟨1⟩] encoded' (by decide) (by decide)
    (fixed _ (by decide)) (by decide) (values _ (by decide)) ran' (uncapped_of_settled ended')
  exact ⟨store, encoded, _, encoded', _, σ, reachable, ran, propagate_of_settled ended,
    (tableFixes _ (propagate_of_settled ended)).1, ran',
    propagate_of_settled ended', histogramFixes _ (propagate_of_settled ended')⟩

/-- A table with crossing rows fails for a fixed sample that lies in two of them, though each entry can be the number
    that the sample makes it. -/
theorem propagate_refuses_table : ∃ (encoded : Store) (σ : Assignment), Reachable [] sixes ∧ sixes.constraints = #[] ∧
    ContingencyBins.ofBins ContingencyBins.crossing.rows ContingencyBins.crossing.columns = .ok .crossing ∧
    sixes.vars.FixedTo σ ⟨0⟩ ∧ sixes.vars.FixedTo σ ⟨1⟩ ∧
    (ContingencyTable.narrow.entryVars ++ ([⟨0⟩, ⟨1⟩] : List Var)).Nodup ∧
    encodeContingency .discrete "t" .narrow .crossing sixes = .ok () encoded ∧
    encoded.propagation.ending ≠ .capped ∧
    (∀ entry ∈ ContingencyTable.narrow.entries .crossing σ, sixes.vars.CanBe entry.1 entry.2) ∧
    ¬ ∃ after, propagate encoded = .ok () after := by
  obtain ⟨encoded, ran, unsettled, uncapped⟩ := leads_encodeContingency_crossing
  refine ⟨encoded, fun _ => .int 6, reachable_sixes, rfl, ContingencyBins.ofBins_crossing, ⟨6, rfl, _, _, rfl, rfl, rfl⟩,
    ⟨6, rfl, _, _, rfl, rfl, rfl⟩, by decide, ran, uncapped,
    fun entry member => (ContingencyTable.canBe_crossing _ entry member).1, ?_⟩
  rintro ⟨after, propagated⟩
  exact unsettled (settled_of_propagate propagated uncapped).1

end Store

end StatBounds
