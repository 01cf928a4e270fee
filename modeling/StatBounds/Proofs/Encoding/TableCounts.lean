import StatBounds.Proofs.Encoding.Decisions
import StatBounds.Proofs.Encoding.Tables

/-! # Contingency tables

The indicators of a table tell which samples belong to which cell, and the cells and marginals are what the samples make
them. What is posted for the samples excludes those that belong to two cells. If the bins of each direction are disjoint,
then there are no such samples, and no table is excluded.
-/

namespace StatBounds

open Binary64 (value)

variable {σ τ τ' : Assignment} {kind : SeriesKind} {t : ContingencyTable} {bins : ContingencyBins}

/-! ## Counting pairs -/

section

variable {α β : Type}

theorem sum_rows_eq_sum_columns (as : List α) (bs : List β) (f : α → β → Nat) :
    (as.map fun a => (bs.map fun b => f a b).sum).sum = (bs.map fun b => (as.map fun a => f a b).sum).sum := by
  have swapped := Multiset.sum_map_sum_map (as : Multiset α) (bs : Multiset β) (f := f)
  simpa only [Multiset.map_coe, Multiset.sum_coe] using swapped

theorem mem_zip_iff {as : List α} {bs : List β} {a : α} {b : β} :
    (a, b) ∈ as.zip bs ↔ ∃ i : Nat, as[i]? = some a ∧ bs[i]? = some b := by
  simp only [List.mem_iff_getElem?, List.getElem?_zip_eq_some]

theorem exists_getElem? {as : List α} {bs : List β} (lengths : as.length = bs.length) {i : Nat} {a : α}
    (found : as[i]? = some a) : ∃ b, bs[i]? = some b :=
  ⟨_, List.getElem?_eq_getElem (lengths ▸ (List.getElem?_eq_some_iff.1 found).1)⟩

/-- A numbered element beside another one is found at its number in both lists. -/
theorem mem_zip_zipIdx_iff {as : List α} {bs : List β} {a : α} {i : Nat} {b : β} :
    ((a, i), b) ∈ as.zipIdx.zip bs ↔ as[i]? = some a ∧ bs[i]? = some b := by
  simp only [mem_zip_iff, List.getElem?_zipIdx, Option.map_eq_some_iff, Prod.mk.injEq, Nat.zero_add]
  constructor
  · rintro ⟨k, ⟨c, found, rfl, rfl⟩, there⟩
    exact ⟨found, there⟩
  · rintro ⟨found, there⟩
    exact ⟨i, ⟨a, found, rfl, rfl⟩, there⟩

theorem sum_map_eq_sum_map {as : List α} {bs : List β} {f : α → ℝ} {h : β → Nat} (lengths : as.length = bs.length)
    (agree : ∀ (i : Nat) a b, as[i]? = some a → bs[i]? = some b → f a = h b) :
    (as.map f).sum = ((bs.map h).sum : Nat) := by
  have same : as.map f = bs.map fun b => (h b : ℝ) := by
    refine List.ext_getElem (by rw [List.length_map, List.length_map, lengths]) fun i inside inside' => ?_
    rw [List.length_map] at inside inside'
    rw [List.getElem_map, List.getElem_map]
    exact agree i _ _ (List.getElem?_eq_getElem inside) (List.getElem?_eq_getElem inside')
  rw [same, Nat.cast_list_sum, List.map_map]
  rfl

/-- Pairs of a row and a column that have one property each are as many as the products of the numbers of such rows
    and columns. -/
theorem sum_and_eq_mul (as : List α) (bs : List β) (p : α → Bool) (q : β → Bool) :
    (as.map fun a => (bs.map fun b => if p a && q b then 1 else 0).sum).sum = as.countP p * bs.countP q := by
  induction as with
  | nil => simp
  | cons a as ih =>
      rw [List.map_cons, List.sum_cons, ih, List.countP_cons, Nat.add_mul, Nat.add_comm]
      cases holds : p a with
      | false => simp
      | true => simp [countP_eq_sum]

/-- Numbers that are one at most add up to the length of a list exactly if all of them are one. -/
theorem sum_le_length {as : List α} {f : α → Nat} (few : ∀ a ∈ as, f a ≤ 1) :
    (as.map f).sum ≤ as.length ∧ ((as.map f).sum = as.length ↔ ∀ a ∈ as, f a = 1) := by
  induction as with
  | nil => simp
  | cons a as ih =>
      obtain ⟨le, eq⟩ := ih fun b member => few b (by simp [member])
      have one := few a (by simp)
      rw [List.map_cons, List.sum_cons, List.length_cons, List.forall_mem_cons, ← eq]
      constructor
      · omega
      · omega

end

/-! ## What a table counts -/

namespace ContingencyTable

/-- A sample has its values in a row's and a column's bin. -/
def InCell (σ : Assignment) (row column : Bin) (sample : Var × Var) : Prop :=
  row.Has (σ sample.1).reading ∧ column.Has (σ sample.2).reading

open Classical in
/-- The number of samples in a cell. -/
noncomputable def tally (t : ContingencyTable) (σ : Assignment) (row column : Bin) : Nat :=
  t.samples.countP fun sample => InCell σ row column sample

/-- The cells and marginals with the numbers that the samples make them. -/
noncomputable def entries (t : ContingencyTable) (bins : ContingencyBins) (σ : Assignment) : List (Var × Nat) :=
  ((bins.rows.zip t.cells).flatMap fun row => (bins.columns.zip row.2).map fun column =>
      (column.2, t.tally σ row.1 column.1)) ++
    (((bins.rows.zip t.rowMarginals).map fun row =>
        (row.2, (bins.columns.map fun column => t.tally σ row.1 column).sum)) ++
      (bins.columns.zip t.columnMarginals).map fun column =>
        (column.2, (bins.rows.map fun row => t.tally σ row column.1).sum))

def TellsCells (t : ContingencyTable) (bins : ContingencyBins) (first : Nat) (σ : Assignment) : Prop :=
  ∀ (i j s : Nat) (row column : Bin) (sample : Var × Var), bins.rows[i]? = some row →
    bins.columns[j]? = some column → t.samples[s]? = some sample →
    ((σ (Store.gridVar first t.samples.length (i * bins.columns.length + j) s)).reading = 1 ↔
      InCell σ row column sample)

/-- The cells and marginals have the numbers that the samples make them. -/
def Holds (t : ContingencyTable) (bins : ContingencyBins) (σ : Assignment) : Prop :=
  ∀ entry ∈ t.entries bins σ, (σ entry.1).reading = entry.2

theorem forall_mem_entries_iff {p : Var × Nat → Prop} : (∀ entry ∈ t.entries bins σ, p entry) ↔
    (∀ (i j : Nat) (row column : Bin) (counts : List Var) (v : Var), bins.rows[i]? = some row →
      bins.columns[j]? = some column → t.cells[i]? = some counts → counts[j]? = some v →
      p (v, t.tally σ row column)) ∧
    (∀ (i : Nat) (row : Bin) (v : Var), bins.rows[i]? = some row → t.rowMarginals[i]? = some v →
      p (v, (bins.columns.map fun column => t.tally σ row column).sum)) ∧
    ∀ (j : Nat) (column : Bin) (v : Var), bins.columns[j]? = some column → t.columnMarginals[j]? = some v →
      p (v, (bins.rows.map fun row => t.tally σ row column).sum) := by
  simp only [entries, List.forall_mem_append, List.forall_mem_flatMap, List.forall_mem_map, Prod.forall,
    mem_zip_iff, forall_exists_index, and_imp]
  refine and_congr ?_ (and_congr ?_ ?_)
  · constructor
    · intro each i j row column counts v inRows inColumns inCells inCounts
      exact each row counts i inRows inCells column v j inColumns inCounts
    · intro each row counts i inRows inCells column v j inColumns inCounts
      exact each i j row column counts v inRows inColumns inCells inCounts
  · exact ⟨fun each i row v => each row v i, fun each row v i => each i row v⟩
  · exact ⟨fun each j column v => each column v j, fun each column v j => each j column v⟩

theorem holds_iff : t.Holds bins σ ↔
    (∀ (i j : Nat) (row column : Bin) (counts : List Var) (v : Var), bins.rows[i]? = some row →
      bins.columns[j]? = some column → t.cells[i]? = some counts → counts[j]? = some v →
      (σ v).reading = t.tally σ row column) ∧
    (∀ (i : Nat) (row : Bin) (v : Var), bins.rows[i]? = some row → t.rowMarginals[i]? = some v →
      (σ v).reading = ((bins.columns.map fun column => t.tally σ row column).sum : Nat)) ∧
    ∀ (j : Nat) (column : Bin) (v : Var), bins.columns[j]? = some column → t.columnMarginals[j]? = some v →
      (σ v).reading = ((bins.rows.map fun row => t.tally σ row column).sum : Nat) :=
  forall_mem_entries_iff

/-! ## What the constraints say -/

/-- The sums that a table posts, by cell, sample, row and column. -/
structure Sums (t : ContingencyTable) (bins : ContingencyBins) (store : Store) (σ : Assignment) : Prop where
  cell : ∀ (i j : Nat) (counts : List Var) (v : Var), i < bins.rows.length → j < bins.columns.length →
    t.cells[i]? = some counts → counts[j]? = some v →
    ((List.range t.samples.length).map fun s =>
      (σ (Store.gridVar store.vars.size t.samples.length (i * bins.columns.length + j) s)).reading).sum = (σ v).reading
  sample : ∀ s sample, t.samples[s]? = some sample →
    (Interval.ofBounds (if store.coversSample bins sample then 1.0 else 0.0) 1.0).Encloses
      (((Store.sampleVars store.vars.size t.samples.length bins.rows.length bins.columns.length s).map fun v =>
        (σ v).reading).sum : ℝ)
  row : ∀ (i : Nat) counts v, t.cells[i]? = some counts → t.rowMarginals[i]? = some v →
    (counts.map fun w => (σ w).reading).sum = (σ v).reading
  column : ∀ (j : Nat) v, t.columnMarginals[j]? = some v →
    ((t.column j).map fun w => (σ w).reading).sum = (σ v).reading

theorem satisfied_tableCell_iff {first columns : Nat} {samples : List (Var × Var)} {row column : Bin × Nat} {v : Var} :
    (∀ c ∈ Store.tableCell kind first samples columns row column v, c.Satisfied σ) ↔
      (∀ s sample, samples[s]? = some sample →
        ((σ (Store.gridVar first samples.length (row.2 * columns + column.2) s)).reading = 1 ↔
          InCell σ row.1 column.1 sample)) ∧
      ((List.range samples.length).map fun s =>
        (σ (Store.gridVar first samples.length (row.2 * columns + column.2) s)).reading).sum = (σ v).reading := by
  have reified (sample : Var × Var) (s : Nat) : (Constraint.reified {
      indicator := Store.gridVar first samples.length (row.2 * columns + column.2) s
      atoms := kind.membership sample.1 row.1 ++ kind.membership sample.2 column.1 }).Satisfied σ ↔
        ((σ (Store.gridVar first samples.length (row.2 * columns + column.2) s)).reading = 1 ↔
          InCell σ row.1 column.1 sample) := by
    refine iff_congr Iff.rfl ?_
    rw [List.forall_mem_append, SeriesKind.membership_iff, SeriesKind.membership_iff, InCell]
  have sum : (Constraint.sum {
      terms := (List.range samples.length).map (Store.gridVar first samples.length (row.2 * columns + column.2))
      total := v }).Satisfied σ ↔
        ((List.range samples.length).map fun s =>
          (σ (Store.gridVar first samples.length (row.2 * columns + column.2) s)).reading).sum = (σ v).reading := by
    change (List.map _ (List.map _ _)).sum = _ ↔ _
    rw [List.map_map]
    rfl
  simp only [Store.tableCell, List.forall_mem_append, List.forall_mem_map, List.forall_mem_singleton, Prod.forall,
    List.mem_zipIdx_iff_getElem?, reified, sum]
  exact and_congr_left' ⟨fun each s x y => each x y s, fun each x y s => each s x y⟩

theorem satisfied_tableConstraints_iff {store : Store} (fits : t.Fits bins) :
    (∀ c ∈ Store.tableConstraints kind store t bins, c.Satisfied σ) ↔
      t.TellsCells bins store.vars.size σ ∧ t.Sums bins store σ := by
  have formula (sample : Var × Var) (s : Nat) :
      (Store.tableSample store bins t.samples.length (sample, s)).Satisfied σ ↔
        (Interval.ofBounds (if store.coversSample bins sample then 1.0 else 0.0) 1.0).Encloses
          (((Store.sampleVars store.vars.size t.samples.length bins.rows.length bins.columns.length s).map fun v =>
            (σ v).reading).sum : ℝ) :=
    Formula.holds_sumOf_iff
  have sum (terms : List Var) (total : Var) : (Constraint.sum { terms, total }).Satisfied σ ↔
      (terms.map fun w => (σ w).reading).sum = (σ total).reading := Iff.rfl
  simp only [Store.tableConstraints, Store.tableCells, List.forall_mem_append, List.forall_mem_flatMap,
    List.forall_mem_map, Prod.forall, List.mem_zipIdx_iff_getElem?, mem_zip_zipIdx_iff,
    satisfied_tableCell_iff, formula, sum]
  constructor
  · rintro ⟨cells, samples, rows, columns⟩
    refine ⟨?_, ⟨?_, ?_, ?_, ?_⟩⟩
    · intro i j s row column sample inRows inColumns found
      obtain ⟨counts, inCells⟩ := exists_getElem? (fits.rows.symm) inRows
      obtain ⟨v, inCounts⟩ := exists_getElem? (fits.columns counts (List.mem_of_getElem? inCells)).symm inColumns
      exact (cells row i counts ⟨inRows, inCells⟩ column j v ⟨inColumns, inCounts⟩).1 s sample.1 sample.2 found
    · intro i j counts v inRows inColumns inCells inCounts
      exact (cells _ i counts ⟨List.getElem?_eq_getElem inRows, inCells⟩ _ j v
        ⟨List.getElem?_eq_getElem inColumns, inCounts⟩).2
    · intro s sample found
      exact samples sample.1 sample.2 s found
    · intro i counts v inCells inMarginals
      exact rows counts v (mem_zip_iff.2 ⟨i, inCells, inMarginals⟩)
    · intro j v found
      exact columns v j found
  · rintro ⟨tells, sums⟩
    refine ⟨?_, ?_, ?_, ?_⟩
    · rintro row i counts ⟨inRows, inCells⟩ column j v ⟨inColumns, inCounts⟩
      refine ⟨fun s x y found => tells i j s row column (x, y) inRows inColumns found, ?_⟩
      exact sums.cell i j counts v (List.getElem?_eq_some_iff.1 inRows).1 (List.getElem?_eq_some_iff.1 inColumns).1
        inCells inCounts
    · intro x y s found
      exact sums.sample s (x, y) found
    · intro counts v member
      obtain ⟨i, inCells, inMarginals⟩ := mem_zip_iff.1 member
      exact sums.row i counts v inCells inMarginals
    · intro v j found
      exact sums.column j v found

/-! ## Sums of truth values -/

section

variable {store : Store}

open Classical in
/-- The value of an indicator that tells whether a sample belongs to a cell. -/
theorem TellsCells.reading (tells : t.TellsCells bins store.vars.size σ)
    (truth : ∀ c < bins.rows.length * bins.columns.length, ∀ s < t.samples.length,
      σ (Store.gridVar store.vars.size t.samples.length c s) = .int 0 ∨
        σ (Store.gridVar store.vars.size t.samples.length c s) = .int 1)
    {i j s : Nat} {row column : Bin} {sample : Var × Var} (inRows : bins.rows[i]? = some row)
    (inColumns : bins.columns[j]? = some column) (found : t.samples[s]? = some sample) :
    (σ (Store.gridVar store.vars.size t.samples.length (i * bins.columns.length + j) s)).reading =
      if InCell σ row column sample then 1 else 0 := by
  have inside := Assignment.gridVar_lt (List.getElem?_eq_some_iff.1 inRows).1 (List.getElem?_eq_some_iff.1 inColumns).1
  have here := truth _ inside s (List.getElem?_eq_some_iff.1 found).1
  rw [Choice.eq_truth here (tells i j s row column sample inRows inColumns found), Choice.reading_truth]

open Classical in
/-- The number of cells that a sample belongs to. -/
noncomputable def hits (bins : ContingencyBins) (σ : Assignment) (sample : Var × Var) : Nat :=
  (bins.rows.map fun row => bins.columns.countP fun column => InCell σ row column sample).sum

/-- No sample belongs to two cells. -/
def Separated (t : ContingencyTable) (bins : ContingencyBins) (σ : Assignment) : Prop :=
  ∀ sample ∈ t.samples, hits bins σ sample ≤ 1

section

variable {sample : Var × Var}

open Classical in
/-- A sample belongs to the cells where a row that has its first value meets a column that has its second one. -/
theorem hits_eq_mul : hits bins σ sample = (bins.rows.countP fun row => row.Has (σ sample.1).reading) *
    bins.columns.countP fun column => column.Has (σ sample.2).reading := by
  have both (row column : Bin) : decide (InCell σ row column sample) =
      (decide (row.Has (σ sample.1).reading) && decide (column.Has (σ sample.2).reading)) := by
    rw [Bool.eq_iff_iff, Bool.and_eq_true, decide_eq_true_eq, decide_eq_true_eq, decide_eq_true_eq]
    exact Iff.rfl
  rw [← sum_and_eq_mul, hits]
  simp only [countP_eq_sum, both]

/-- A sample belongs to a cell exactly if both values are in bins. -/
theorem one_le_hits_iff : 1 ≤ hits bins σ sample ↔
    (∃ row ∈ bins.rows, row.Has (σ sample.1).reading) ∧ ∃ column ∈ bins.columns,
      column.Has (σ sample.2).reading := by
  classical
  rw [hits_eq_mul, Nat.one_le_iff_ne_zero, Nat.mul_ne_zero_iff, ← Nat.pos_iff_ne_zero, ← Nat.pos_iff_ne_zero,
    List.countP_pos_iff, List.countP_pos_iff]
  simp only [decide_eq_true_eq]

/-- Sorted bins separate the samples, whatever their values are. -/
theorem separated_of_sorted (rows : bins.rows.Pairwise fun a b => value a.ub ≤ value b.lb)
    (columns : bins.columns.Pairwise fun a b => value a.ub ≤ value b.lb) : t.Separated bins σ := by
  classical
  have few {list : List Bin} (sorted : list.Pairwise fun a b => value a.ub ≤ value b.lb) (x : EReal) :
      (list.countP fun bin => decide (bin.Has x)) ≤ 1 := by
    refine countP_le_one (sorted.imp fun {a b} ordered both => ?_)
    simp only [decide_eq_true_eq] at both
    exact absurd (both.1.below.trans_le ordered) (not_lt.2 both.2.above)
  intro sample _
  rw [hits_eq_mul]
  exact Nat.mul_le_mul (few rows _) (few columns _)

theorem hits_congr (first : τ sample.1 = σ sample.1) (second : τ sample.2 = σ sample.2) :
    hits bins τ sample = hits bins σ sample := by
  rw [hits_eq_mul, hits_eq_mul, first, second]

theorem Separated.congr (separated : t.Separated bins σ) (first : ∀ v ∈ t.first, τ v = σ v)
    (second : ∀ v ∈ t.second, τ v = σ v) : t.Separated bins τ := by
  intro sample member
  have both := List.of_mem_zip member
  rw [hits_congr (first _ both.1) (second _ both.2)]
  exact separated sample member

end

theorem column_eq (fits : t.Fits bins) {j : Nat} (inside : j < bins.columns.length) :
    (t.column j).length = t.cells.length ∧ ∀ (i : Nat) (v : Var), (t.column j)[i]? = some v →
      ∃ counts : List Var, t.cells[i]? = some counts ∧ counts[j]? = some v := by
  have same : t.column j = t.cells.map fun counts => (counts[j]?).getD ⟨0⟩ := by
    rw [column, ← List.filterMap_eq_map]
    refine List.filterMap_congr fun counts member => ?_
    obtain ⟨v, found⟩ := exists_getElem? (fits.columns counts member).symm (List.getElem?_eq_getElem inside)
    rw [Function.comp_apply, found, Option.getD_some]
  refine ⟨by rw [same, List.length_map], fun i v found => ?_⟩
  rw [same, List.getElem?_map] at found
  obtain ⟨counts, inCells, there⟩ := Option.map_eq_some_iff.1 found
  obtain ⟨w, inCounts⟩ := exists_getElem? (fits.columns counts (List.mem_of_getElem? inCells)).symm
    (List.getElem?_eq_getElem inside)
  rw [inCounts, Option.getD_some] at there
  exact ⟨counts, inCells, there ▸ inCounts⟩

def HoldsCells (t : ContingencyTable) (bins : ContingencyBins) (σ : Assignment) : Prop :=
  ∀ (i j : Nat) (row column : Bin) (counts : List Var) (v : Var), bins.rows[i]? = some row →
    bins.columns[j]? = some column → t.cells[i]? = some counts → counts[j]? = some v →
    (σ v).reading = t.tally σ row column

theorem HoldsCells.sum_row (holds : t.HoldsCells bins σ) (fits : t.Fits bins) {i : Nat} {row : Bin} {counts : List Var}
    (inRows : bins.rows[i]? = some row) (inCells : t.cells[i]? = some counts) :
    (counts.map fun w => (σ w).reading).sum = ((bins.columns.map fun column => t.tally σ row column).sum : Nat) :=
  sum_map_eq_sum_map (fits.columns counts (List.mem_of_getElem? inCells)) fun j v column inCounts inColumns =>
    holds i j row column counts v inRows inColumns inCells inCounts

theorem HoldsCells.sum_column (holds : t.HoldsCells bins σ) (fits : t.Fits bins) {j : Nat} {column : Bin}
    (inColumns : bins.columns[j]? = some column) :
    ((t.column j).map fun w => (σ w).reading).sum = ((bins.rows.map fun row => t.tally σ row column).sum : Nat) := by
  obtain ⟨length, cells⟩ := column_eq fits (List.getElem?_eq_some_iff.1 inColumns).1
  refine sum_map_eq_sum_map (length.trans fits.rows) fun i v row inColumn inRows => ?_
  obtain ⟨counts, inCells, inCounts⟩ := cells i v inColumn
  exact holds i j row column counts v inRows inColumns inCells inCounts

/-- What is posted for a sample admits one cell at most, and asks for one if the bins cover the sample. -/
theorem encloses_cells_iff (sample : Var × Var) {k : Nat} :
    (Interval.ofBounds (if store.coversSample bins sample then 1.0 else 0.0) 1.0).Encloses ((k : ℝ) : EReal) ↔
      (store.coversSample bins sample = true → 1 ≤ k) ∧ k ≤ 1 := by
  have one : value 1.0 = ((1 : Nat) : ℝ) := by
    rw [Binary64.value_one]
    simp
  have zero : value 0.0 = ((0 : Nat) : ℝ) := by
    rw [Binary64.value_zero]
    simp
  cases covered : store.coversSample bins sample with
  | true =>
      simp only [if_true, true_imp_iff]
      exact Interval.encloses_natCast_iff one one Binary64.isNumber_one Binary64.isNumber_one
  | false =>
      simp only [Bool.false_eq_true, if_false, false_imp_iff, true_and]
      rw [Interval.encloses_natCast_iff zero one Binary64.isNumber_zero Binary64.isNumber_one]
      exact and_iff_right (Nat.zero_le k)

section

variable (tells : t.TellsCells bins store.vars.size σ)
  (truth : ∀ c < bins.rows.length * bins.columns.length, ∀ s < t.samples.length,
    σ (Store.gridVar store.vars.size t.samples.length c s) = .int 0 ∨
      σ (Store.gridVar store.vars.size t.samples.length c s) = .int 1)

include tells truth

theorem TellsCells.sum_cell {i j : Nat} {row column : Bin} (inRows : bins.rows[i]? = some row)
    (inColumns : bins.columns[j]? = some column) :
    ((List.range t.samples.length).map fun s => (σ (Store.gridVar store.vars.size t.samples.length
      (i * bins.columns.length + j) s)).reading).sum = t.tally σ row column := by
  classical
  exact sum_range_eq_countP fun s sample found => tells.reading truth inRows inColumns found

theorem TellsCells.sum_sample {s : Nat} {sample : Var × Var} (found : t.samples[s]? = some sample) :
    ((Store.sampleVars store.vars.size t.samples.length bins.rows.length bins.columns.length s).map fun v =>
      (σ v).reading).sum = hits bins σ sample := by
  classical
  have inner {i : Nat} {row : Bin} (inRows : bins.rows[i]? = some row) :
      (((List.range bins.columns.length).map fun j => Store.gridVar store.vars.size t.samples.length
        (i * bins.columns.length + j) s).map fun v => (σ v).reading).sum =
          ((bins.columns.countP fun column => InCell σ row column sample : Nat) : ℝ) := by
    rw [List.map_map]
    exact sum_range_eq_countP fun j column inColumns => tells.reading truth inRows inColumns found
  rw [Store.sampleVars, List.map_flatMap, List.flatMap_def, List.sum_flatten, List.map_map]
  exact sum_range_eq_sum fun i row inRows => inner inRows

/-- With indicators that tell the cells, the sums say that the entries are right, that no sample belongs to two cells
    and that covered samples belong to one. -/
theorem sums_iff (fits : t.Fits bins) : t.Sums bins store σ ↔ t.Holds bins σ ∧ t.Separated bins σ ∧
    ∀ sample ∈ t.samples, store.coversSample bins sample = true → 1 ≤ hits bins σ sample := by
  rw [holds_iff]
  constructor
  · intro sums
    have cells : t.HoldsCells bins σ := by
      intro i j row column counts v inRows inColumns inCells inCounts
      have inside := (List.getElem?_eq_some_iff.1 inRows).1
      have inside' := (List.getElem?_eq_some_iff.1 inColumns).1
      rw [← tells.sum_cell truth inRows inColumns]
      exact (sums.cell i j counts v inside inside' inCells inCounts).symm
    have single (sample : Var × Var) (member : sample ∈ t.samples) :
        (store.coversSample bins sample = true → 1 ≤ hits bins σ sample) ∧ hits bins σ sample ≤ 1 := by
      obtain ⟨s, found⟩ := List.mem_iff_getElem?.1 member
      rw [← encloses_cells_iff, ← tells.sum_sample truth found]
      exact sums.sample s sample found
    -- The marginals are sums of entries, so the entries have to be known to be right first.
    refine ⟨⟨cells, fun i row v inRows inMarginals => ?_, fun j column v inColumns inMarginals => ?_⟩,
      fun sample member => (single sample member).2, fun sample member => (single sample member).1⟩
    · obtain ⟨counts, inCells⟩ := exists_getElem? fits.rows.symm inRows
      rw [← cells.sum_row fits inRows inCells]
      exact (sums.row i counts v inCells inMarginals).symm
    · rw [← cells.sum_column fits inColumns]
      exact (sums.column j v inMarginals).symm
  · rintro ⟨⟨cells, rowMarginals, columnMarginals⟩, separated, covers⟩
    refine ⟨fun i j counts v inside inside' inCells inCounts => ?_, fun s sample found => ?_,
      fun i counts v inCells inMarginals => ?_, fun j v inMarginals => ?_⟩
    · have inRows := List.getElem?_eq_getElem inside
      have inColumns := List.getElem?_eq_getElem inside'
      rw [tells.sum_cell truth inRows inColumns]
      exact (cells i j _ _ counts v inRows inColumns inCells inCounts).symm
    · rw [tells.sum_sample truth found, encloses_cells_iff]
      have member := List.mem_of_getElem? found
      exact ⟨covers sample member, separated sample member⟩
    · obtain ⟨row, inRows⟩ := exists_getElem? fits.rows inCells
      rw [HoldsCells.sum_row cells fits inRows inCells]
      exact (rowMarginals i row v inRows inMarginals).symm
    · obtain ⟨column, inColumns⟩ := exists_getElem? fits.columnMarginals inMarginals
      rw [HoldsCells.sum_column cells fits inColumns]
      exact (columnMarginals j column v inColumns inMarginals).symm

end

/-! ## Totals -/

open Classical in
theorem sum_tally_eq_sum_hits :
    (bins.rows.map fun row => (bins.columns.map fun column => t.tally σ row column).sum).sum =
    (t.samples.map (hits bins σ)).sum := by
  calc (bins.rows.map fun row => (bins.columns.map fun column => t.tally σ row column).sum).sum
      = (bins.rows.map fun row => (t.samples.map fun sample =>
          bins.columns.countP fun column => InCell σ row column sample).sum).sum := by
        refine congrArg List.sum (List.map_congr_left fun row _ => ?_)
        simp only [tally, countP_eq_sum]
        exact sum_rows_eq_sum_columns _ _ _
    _ = (t.samples.map (hits bins σ)).sum := sum_rows_eq_sum_columns _ _ _

/-- The marginals of both directions add up to the sum of all cells, which is no more than the number of samples. -/
theorem Holds.totals (holds : t.Holds bins σ) (fits : t.Fits bins) (separated : t.Separated bins σ) :
    (t.rowMarginals.map fun v => (σ v).reading).sum = (t.cells.flatten.map fun v => (σ v).reading).sum ∧
      (t.columnMarginals.map fun v => (σ v).reading).sum = (t.cells.flatten.map fun v => (σ v).reading).sum ∧
      (t.cells.flatten.map fun v => (σ v).reading).sum ≤ t.samples.length ∧
      ((t.cells.flatten.map fun v => (σ v).reading).sum = t.samples.length ↔ ∀ sample ∈ t.samples,
        (∃ row ∈ bins.rows, row.Has (σ sample.1).reading) ∧
          ∃ column ∈ bins.columns, column.Has (σ sample.2).reading) := by
  obtain ⟨cells, rowMarginals, columnMarginals⟩ := holds_iff.1 holds
  have rowTotal : (t.rowMarginals.map fun v => (σ v).reading).sum =
      ((bins.rows.map fun row => (bins.columns.map fun column => t.tally σ row column).sum).sum : Nat) :=
    sum_map_eq_sum_map fits.rowMarginals fun i v row inMarginals inRows => rowMarginals i row v inRows inMarginals
  have columnTotal : (t.columnMarginals.map fun v => (σ v).reading).sum =
      ((bins.columns.map fun column => (bins.rows.map fun row => t.tally σ row column).sum).sum : Nat) :=
    sum_map_eq_sum_map fits.columnMarginals fun j v column inMarginals inColumns =>
      columnMarginals j column v inColumns inMarginals
  have cellTotal : (t.cells.flatten.map fun v => (σ v).reading).sum =
      ((bins.rows.map fun row => (bins.columns.map fun column => t.tally σ row column).sum).sum : Nat) := by
    rw [List.map_flatten, List.sum_flatten, List.map_map]
    refine sum_map_eq_sum_map fits.rows fun i counts row inCells inRows => ?_
    exact sum_map_eq_sum_map (fits.columns counts (List.mem_of_getElem? inCells)) fun j v column inCounts inColumns =>
      cells i j row column counts v inRows inColumns inCells inCounts
  obtain ⟨le, eq⟩ := sum_le_length separated
  have swapped := sum_rows_eq_sum_columns bins.rows bins.columns (t.tally σ)
  rw [rowTotal, columnTotal, cellTotal, ← swapped, sum_tally_eq_sum_hits]
  refine ⟨rfl, rfl, by exact_mod_cast le, ?_⟩
  rw [Nat.cast_inj, eq]
  refine forall₂_congr fun sample member => ?_
  rw [← one_le_hits_iff]
  exact ⟨fun one => one.ge, fun some => le_antisymm (separated sample member) some⟩

theorem le_of_mem_entries (separated : t.Separated bins σ) {entry : Var × Nat}
    (member : entry ∈ t.entries bins σ) : entry.2 ≤ t.samples.length := by
  have total := (sum_le_length separated).1
  rw [← sum_tally_eq_sum_hits] at total
  simp only [entries, List.mem_append, List.mem_flatMap, List.mem_map] at member
  rcases member with ⟨row, _, column, _, rfl⟩ | ⟨row, inRows, rfl⟩ | ⟨column, inColumns, rfl⟩
  · exact List.countP_le_length
  · refine le_trans (List.single_le_sum (fun _ _ => Nat.zero_le _) _ ?_) total
    exact List.mem_map.2 ⟨row.1, (List.of_mem_zip inRows).1, rfl⟩
  · rw [sum_rows_eq_sum_columns] at total
    refine le_trans (List.single_le_sum (fun _ _ => Nat.zero_le _) _ ?_) total
    exact List.mem_map.2 ⟨column.1, (List.of_mem_zip inColumns).1, rfl⟩

theorem map_fst_entries (fits : t.Fits bins) : (t.entries bins σ).map Prod.fst = t.entryVars := by
  have cells : ((bins.rows.zip t.cells).flatMap fun row => (bins.columns.zip row.2).map fun column =>
      (column.2, t.tally σ row.1 column.1)).map Prod.fst = t.cells.flatten := by
    have row (pair : Bin × List Var) (member : pair ∈ bins.rows.zip t.cells) :
        ((bins.columns.zip pair.2).map fun column => (column.2, t.tally σ pair.1 column.1)).map Prod.fst = pair.2 := by
      rw [List.map_map]
      exact List.map_snd_zip (fits.columns _ (List.of_mem_zip member).2).le
    rw [List.map_flatMap, List.flatMap_congr row, List.flatMap_def, List.map_snd_zip fits.rows.le]
  rw [entries, List.map_append, List.map_append, cells, entryVars, List.map_map, List.map_map]
  congr
  · exact List.map_snd_zip fits.rowMarginals.le
  · exact List.map_snd_zip fits.columnMarginals.le

/-- The entries depend on the values of the samples only. -/
theorem entries_congr (first : ∀ v ∈ t.first, τ v = σ v) (second : ∀ v ∈ t.second, τ v = σ v) :
    t.entries bins τ = t.entries bins σ := by
  have inCell (row column : Bin) (sample : Var × Var) (member : sample ∈ t.samples) :
      InCell τ row column sample ↔ InCell σ row column sample := by
    have both := List.of_mem_zip member
    rw [InCell, InCell, first _ both.1, second _ both.2]
  have tally (row column : Bin) : t.tally τ row column = t.tally σ row column :=
    List.countP_congr fun sample member => by simp only [decide_eq_true_eq, inCell row column sample member]
  simp only [entries, tally]

end

end ContingencyTable

/-! ## Solutions -/

section

variable {name : String} {store after : Store}

theorem Store.length_tableNames (fits : t.Fits bins) :
    (tableNames name t bins).length = bins.rows.length * bins.columns.length * t.samples.length := by
  have row (pair : (Bin × Nat) × List Var) (member : pair ∈ bins.rows.zipIdx.zip t.cells) :
      ((bins.columns.zipIdx.zip pair.2).flatMap fun column =>
        cellNames name t.samples pair.1.2 column.1.2).length = bins.columns.length * t.samples.length := by
    simp [List.length_flatMap, length_cellNames, List.length_zip, fits.columns _ (List.of_mem_zip member).2]
  rw [tableNames, List.length_flatMap, List.map_congr_left row]
  simp [List.length_zip, fits.rows, Nat.mul_assoc]

/-- A solution of what a table adds gives truth values to the indicators, which tell the cells, and makes the entries
    what they are to be. It puts no sample into two cells. -/
theorem Store.solves_table_iff
    (ran : encodeContingency kind name t bins store = .ok () after) :
    store.Solves after σ ↔
      (∀ c < bins.rows.length * bins.columns.length, ∀ s < t.samples.length,
        σ (gridVar store.vars.size t.samples.length c s) = .int 0 ∨
          σ (gridVar store.vars.size t.samples.length c s) = .int 1) ∧
      t.TellsCells bins store.vars.size σ ∧ t.Holds bins σ ∧ t.Separated bins σ ∧
      ∀ sample ∈ t.samples, store.coversSample bins sample = true → 1 ≤ ContingencyTable.hits bins σ sample := by
  obtain ⟨checks, extended⟩ := extends_encodeContingency ran
  have grid : (∀ k < (tableNames name t bins).length, σ ⟨store.vars.size + k⟩ = .int 0 ∨
      σ ⟨store.vars.size + k⟩ = .int 1) ↔
      ∀ c < bins.rows.length * bins.columns.length, ∀ s < t.samples.length,
        σ (gridVar store.vars.size t.samples.length c s) = .int 0 ∨
          σ (gridVar store.vars.size t.samples.length c s) = .int 1 := by
    rw [length_tableNames checks.fits]
    exact Assignment.forall_gridVar_iff (p := fun v => σ v = .int 0 ∨ σ v = .int 1)
  rw [extended.solves_iff, grid, ContingencyTable.satisfied_tableConstraints_iff checks.fits]
  refine and_congr_right fun truth => and_congr_right fun tells => ?_
  exact ContingencyTable.sums_iff tells truth checks.fits

theorem Store.hits_of_coversSample {sample : Var × Var} (first : store.Allows sample.1 (σ sample.1))
    (second : store.Allows sample.2 (σ sample.2)) (covered : store.coversSample bins sample = true) :
    1 ≤ ContingencyTable.hits bins σ sample := by
  obtain ⟨x, found, admits⟩ := first
  obtain ⟨y, found', admits'⟩ := second
  simp only [coversSample, found, found', Bool.and_eq_true] at covered
  rw [ContingencyTable.one_le_hits_iff]
  exact ⟨Bin.exists_has_of_covers covered.1 admits, Bin.exists_has_of_covers covered.2 admits'⟩

/-- The bins that a table accepts separate the samples, if the lower bound of each bin comes first. -/
theorem ContingencyTable.separated_of_ofBins {rows columns : List Bin}
    (checked : ContingencyBins.ofBins rows columns = .ok bins) (proper : ∀ bin ∈ rows ++ columns, bin.Proper) :
    t.Separated bins σ := by
  obtain ⟨properRows, properColumns⟩ := List.forall_mem_append.1 proper
  obtain ⟨_, checkedRows, rest⟩ := bind_eq_ok.1 checked
  obtain ⟨_, checkedColumns, same⟩ := bind_eq_ok.1 rest
  obtain rfl := Except.ok.inj same
  exact separated_of_sorted (Bin.pairwise_of_check properRows checkedRows)
    (Bin.pairwise_of_check properColumns checkedColumns)

/-- The choices for the entries and indicators of a table that go with given values of the samples. -/
structure Store.Completes (store after : Store) (t : ContingencyTable) (σ τ : Assignment) : Prop where
  others : ∀ v, v ∉ t.entryVars → store.vars.contains v = after.vars.contains v → τ v = σ v
  entries : ∀ v ∈ t.entryVars, store.Allows v (τ v)
  solves : store.Solves after τ

theorem ContingencyTable.exists_holds (fits : t.Fits bins) (distinct : t.entryVars.Nodup)
    (apart : ∀ v ∈ t.entryVars, v ∉ t.first ∧ v ∉ t.second)
    (choices : ∀ entry ∈ t.entries bins σ, ∃ c, store.Allows entry.1 c ∧ c.reading = entry.2) :
    ∃ τ : Assignment, (∀ v ∉ t.entryVars, τ v = σ v) ∧ (∀ v ∈ t.entryVars, store.Allows v (τ v)) ∧
      t.Holds bins τ := by
  have keys := map_fst_entries (σ := σ) fits
  obtain ⟨τ, others, suits⟩ := Assignment.exists_entries (σ := σ) (keys.symm ▸ distinct) choices
  rw [keys] at others
  have entries : t.entries bins τ = t.entries bins σ :=
    entries_congr (fun v member => others v fun listed => (apart v listed).1 member)
      fun v member => others v fun listed => (apart v listed).2 member
  refine ⟨τ, others, fun v member => ?_, fun entry member => ?_⟩
  · rw [← keys] at member
    obtain ⟨entry, listed, rfl⟩ := List.mem_map.1 member
    exact (suits entry listed).1
  · rw [entries] at member
    exact (suits entry member).2

open ContingencyTable (InCell) in
/-- The indicators of a table that is right have the values that tell the cells, if no sample belongs to two. -/
theorem Store.exists_solves_table (separated : t.Separated bins σ)
    (ran : encodeContingency kind name t bins store = .ok () after)
    (samples : ∀ v ∈ t.first ++ t.second, store.Allows v (σ v)) (holds : t.Holds bins σ) :
    ∃ τ : Assignment, (∀ v, store.vars.contains v = after.vars.contains v → τ v = σ v) ∧ store.Solves after τ := by
  obtain ⟨checks, extended⟩ := extends_encodeContingency ran
  let tells (c s : Nat) : Prop := ∃ row column sample, bins.rows[c / bins.columns.length]? = some row ∧
    bins.columns[c % bins.columns.length]? = some column ∧ t.samples[s]? = some sample ∧ InCell σ row column sample
  let τ := σ.withGrid store.vars.size (bins.rows.length * bins.columns.length) t.samples.length tells
  have on (c : Nat) (inCells : c < bins.rows.length * bins.columns.length) (s : Nat)
      (inSamples : s < t.samples.length) :
      τ (gridVar store.vars.size t.samples.length c s) = .truth (tells c s) :=
    Assignment.withGrid_gridVar inCells inSamples
  have off (v : Var) (same : store.vars.contains v = after.vars.contains v) : τ v = σ v := by
    refine Assignment.withGrid_off ?_
    have length : (tableNames name t bins).length = _ := length_tableNames checks.fits
    rw [← length]
    exact extended.contains_eq_iff.1 same
  have first (v : Var) (member : v ∈ t.first) : τ v = σ v := off v (extended.contains_eq (checks.first v member))
  have second (v : Var) (member : v ∈ t.second) : τ v = σ v := off v (extended.contains_eq (checks.second v member))
  refine ⟨τ, off, (solves_table_iff ran).2 ⟨fun c inCells s inSamples => ?_, ?_, ?_, ?_, ?_⟩⟩
  · rw [on c inCells s inSamples]
    exact Choice.truth_cases _
  · intro i j s row column sample inRows inColumns found
    have inside := (List.getElem?_eq_some_iff.1 inColumns).1
    have inCells := Assignment.gridVar_lt (List.getElem?_eq_some_iff.1 inRows).1 inside
    have both := List.of_mem_zip (List.mem_of_getElem? found)
    rw [on _ inCells s (List.getElem?_eq_some_iff.1 found).1, Choice.reading_truth_eq_one, InCell, first _ both.1,
      second _ both.2]
    simp only [tells, Assignment.gridVar_div inside, Assignment.gridVar_mod inside, inRows, inColumns, found,
      Option.some.injEq, exists_eq_left', exists_and_left]
    exact Iff.rfl
  · intro entry member
    have known : store.vars.contains entry.1 = true := by
      refine checks.entries _ ?_
      rw [← ContingencyTable.map_fst_entries (σ := τ) checks.fits]
      exact List.mem_map_of_mem member
    rw [ContingencyTable.entries_congr first second] at member
    rw [off _ (extended.contains_eq known)]
    exact holds entry member
  · exact separated.congr first second
  · intro sample member covered
    have both := List.of_mem_zip member
    refine hits_of_coversSample ?_ ?_ covered
    · rw [first _ both.1]
      exact samples _ (List.mem_append_left _ both.1)
    · rw [second _ both.2]
      exact samples _ (List.mem_append_right _ both.2)

theorem Store.Solves.gridVar_eq
    (ran : encodeContingency kind name t bins store = .ok () after) (solves : store.Solves after τ)
    (solves' : store.Solves after τ') (same : ∀ v ∈ t.first ++ t.second, τ' v = τ v) :
    ∀ c < bins.rows.length * bins.columns.length, ∀ s < t.samples.length,
      τ' (gridVar store.vars.size t.samples.length c s) = τ (gridVar store.vars.size t.samples.length c s) := by
  intro c inCells s inSamples
  obtain ⟨truth, tells, -⟩ := (solves_table_iff ran).1 solves
  obtain ⟨truth', tells', -⟩ := (solves_table_iff ran).1 solves'
  have positive : 0 < bins.columns.length := Nat.pos_of_mul_pos_left (Nat.zero_lt_of_lt inCells)
  have row := List.getElem?_eq_getElem (Nat.div_lt_of_lt_mul (Nat.mul_comm _ _ ▸ inCells) :
    c / bins.columns.length < bins.rows.length)
  have column := List.getElem?_eq_getElem (Nat.mod_lt c positive)
  have sample := List.getElem?_eq_getElem inSamples
  have told := tells _ _ _ _ _ _ row column sample
  have told' := tells' _ _ _ _ _ _ row column sample
  obtain ⟨inFirst, inSecond⟩ : t.samples[s].1 ∈ t.first ∧ t.samples[s].2 ∈ t.second :=
    List.of_mem_zip (List.getElem_mem inSamples)
  rw [Nat.div_add_mod'] at told told'
  rw [ContingencyTable.InCell, same _ (List.mem_append_left _ inFirst),
    same _ (List.mem_append_right _ inSecond)] at told'
  rw [Choice.eq_truth (truth c inCells s inSamples) told, Choice.eq_truth (truth' c inCells s inSamples) told']
  rfl

theorem Store.Completes.sample_eq (apart : ∀ v ∈ t.entryVars, v ∉ t.first ∧ v ∉ t.second)
    (ran : encodeContingency kind name t bins store = .ok () after) (completes : store.Completes after t σ τ) :
    ∀ v ∈ t.first ++ t.second, τ v = σ v := by
  obtain ⟨checks, extended⟩ := extends_encodeContingency ran
  intro v member
  have known : store.vars.contains v = true := by
    rcases List.mem_append.1 member with first | second
    · exact checks.first v first
    · exact checks.second v second
  refine completes.others v (fun entry => ?_) (extended.contains_eq known)
  rcases List.mem_append.1 member with first | second
  · exact (apart v entry).1 first
  · exact (apart v entry).2 second

/-- If there is a solution, then no sample belongs to two cells. -/
theorem Store.Completes.separated (apart : ∀ v ∈ t.entryVars, v ∉ t.first ∧ v ∉ t.second)
    (ran : encodeContingency kind name t bins store = .ok () after) (completes : store.Completes after t σ τ) :
    t.Separated bins σ := by
  obtain ⟨-, -, -, separated, -⟩ := (solves_table_iff ran).1 completes.solves
  have sample := completes.sample_eq apart ran
  exact separated.congr (fun v first => (sample v (List.mem_append_left _ first)).symm)
    fun v second => (sample v (List.mem_append_right _ second)).symm

/-- The values of the samples leave no choice for the entries and indicators, as far as their readings tell. -/
theorem Store.Completes.unique
    (apart : ∀ v ∈ t.entryVars, v ∉ t.first ∧ v ∉ t.second)
    (ran : encodeContingency kind name t bins store = .ok () after) (completes : store.Completes after t σ τ)
    (completes' : store.Completes after t σ τ') :
    (∀ v, (τ' v).reading = (τ v).reading) ∧ (t.samples.length < 2 ^ 53 → τ' = τ) := by
  obtain ⟨checks, extended⟩ := extends_encodeContingency ran
  have sample (v : Var) (member : v ∈ t.first ++ t.second) : τ' v = τ v :=
    (completes'.sample_eq apart ran v member).trans (completes.sample_eq apart ran v member).symm
  have grid : ∀ k < bins.rows.length * bins.columns.length * t.samples.length,
      τ' ⟨store.vars.size + k⟩ = τ ⟨store.vars.size + k⟩ := by
    rw [Assignment.forall_gridVar_iff (p := fun v => τ' v = τ v)]
    exact Solves.gridVar_eq ran completes.solves completes'.solves sample
  have rest (v : Var) (other : v ∉ t.entryVars) : τ' v = τ v := by
    by_cases same : store.vars.contains v = after.vars.contains v
    · rw [completes'.others v other same, completes.others v other same]
    · rw [extended.contains_eq_iff, not_not, length_tableNames checks.fits] at same
      obtain ⟨k, position⟩ := Nat.exists_eq_add_of_le same.1
      obtain rfl : v = ⟨store.vars.size + k⟩ := congrArg Var.mk position
      exact grid k (by omega)
  obtain ⟨-, -, holds, separated, -⟩ := (solves_table_iff ran).1 completes.solves
  obtain ⟨-, -, holds', -⟩ := (solves_table_iff ran).1 completes'.solves
  have entry (v : Var) (member : v ∈ t.entryVars) :
      ∃ n ≤ t.samples.length, (τ v).reading = (n : ℕ) ∧ (τ' v).reading = (n : ℕ) := by
    rw [← ContingencyTable.map_fst_entries (σ := τ) checks.fits] at member
    obtain ⟨listed, inEntries, rfl⟩ := List.mem_map.1 member
    refine ⟨listed.2, ContingencyTable.le_of_mem_entries separated inEntries, holds listed inEntries, ?_⟩
    refine holds' listed ?_
    rwa [ContingencyTable.entries_congr (fun v first => sample v (List.mem_append_left _ first))
      fun v second => sample v (List.mem_append_right _ second)]
  constructor
  · intro v
    by_cases member : v ∈ t.entryVars
    · obtain ⟨n, -, reading, reading'⟩ := entry v member
      rw [reading, reading']
    · rw [rest v member]
  · intro few
    funext v
    by_cases member : v ∈ t.entryVars
    · obtain ⟨n, small, reading, reading'⟩ := entry v member
      obtain ⟨x, found, admits⟩ := completes.entries v member
      obtain ⟨x', found', admits'⟩ := completes'.entries v member
      obtain rfl := Option.some.inj (found.symm.trans found')
      have bounded : |(n : Int)| < 2 ^ 53 := by
        rw [abs_of_nonneg (Int.natCast_nonneg n)]
        exact_mod_cast small.trans_lt few
      exact admits'.eq_of_reading admits bounded (by exact_mod_cast reading') (by exact_mod_cast reading)
    · exact rest v member

/-- A table means the table. Whatever solves what it adds counts the samples in each cell, and the marginals of both
    directions add up to the sum of all cells, which is the number of samples if all of them have both values in bins
    and is less otherwise. The values of the samples leave one solution at most. There is one, if the numbers that the
    samples make the entries are in the domains, exactly if no sample belongs to two cells, and bins that are accepted
    leave no sample two cells if the lower bound of each comes first. -/
theorem Store.encodeContingency_counts (distinct : t.entryVars.Nodup)
    (apart : ∀ v ∈ t.entryVars, v ∉ t.first ∧ v ∉ t.second)
    (ran : encodeContingency kind name t bins store = .ok () after) :
    (∀ σ, store.Solves after σ → t.Holds bins σ ∧
      (t.rowMarginals.map fun v => (σ v).reading).sum = (t.cells.flatten.map fun v => (σ v).reading).sum ∧
      (t.columnMarginals.map fun v => (σ v).reading).sum = (t.cells.flatten.map fun v => (σ v).reading).sum ∧
      (t.cells.flatten.map fun v => (σ v).reading).sum ≤ t.samples.length ∧
      ((t.cells.flatten.map fun v => (σ v).reading).sum = t.samples.length ↔ ∀ sample ∈ t.samples,
        (∃ row ∈ bins.rows, row.Has (σ sample.1).reading) ∧
          ∃ column ∈ bins.columns, column.Has (σ sample.2).reading)) ∧
    (∀ σ τ τ', store.Completes after t σ τ → store.Completes after t σ τ' →
      (∀ v, (τ' v).reading = (τ v).reading) ∧ (t.samples.length < 2 ^ 53 → τ' = τ)) ∧
    ∀ σ, (∀ v ∈ t.first ++ t.second, store.Allows v (σ v)) →
      (∀ entry ∈ t.entries bins σ, ∃ c, store.Allows entry.1 c ∧ c.reading = entry.2) →
      ((∃ τ, store.Completes after t σ τ) ↔ t.Separated bins σ) ∧
      ∀ rows columns, ContingencyBins.ofBins rows columns = .ok bins → (∀ bin ∈ rows ++ columns, bin.Proper) →
        t.Separated bins σ := by
  obtain ⟨checks, extended⟩ := extends_encodeContingency ran
  refine ⟨fun σ solves => ?_, fun σ τ τ' completes completes' => completes.unique apart ran completes',
    fun σ samples choices => ⟨⟨fun ⟨τ, completes⟩ => completes.separated apart ran, fun separated => ?_⟩,
      fun rows columns checked proper => ContingencyTable.separated_of_ofBins checked proper⟩⟩
  · obtain ⟨-, -, holds, separated, -⟩ := (solves_table_iff ran).1 solves
    exact ⟨holds, holds.totals checks.fits separated⟩
  · obtain ⟨ρ, others, entries, holds⟩ := ContingencyTable.exists_holds checks.fits distinct apart choices
    have kept (v : Var) (member : v ∈ t.first ++ t.second) : ρ v = σ v := by
      refine others v fun entry => ?_
      rcases List.mem_append.1 member with first | second
      · exact (apart v entry).1 first
      · exact (apart v entry).2 second
    have separated' : t.Separated bins ρ := separated.congr (fun v first => kept v (List.mem_append_left _ first))
      fun v second => kept v (List.mem_append_right _ second)
    obtain ⟨τ, same, solves⟩ := exists_solves_table separated' ran
      (fun v member => kept v member ▸ samples v member) holds
    refine ⟨τ, fun v other alike => ?_, fun v member => ?_, solves⟩
    · rw [same v alike, others v other]
    · rw [same v (extended.contains_eq (checks.entries v member))]
      exact entries v member

/-- One sample in a table of one cell, which covers the first value but not all second ones. -/
theorem Store.encodeContingency_counts_one_sample :
    let t : ContingencyTable := {
      first := [⟨0⟩], second := [⟨1⟩], cells := [[⟨2⟩]], rowMarginals := [⟨3⟩], columnMarginals := [⟨4⟩] }
    let bins : ContingencyBins := { rows := [⟨0.0, 2.0⟩], columns := [⟨0.0, 2.0⟩] }
    ∃ store after σ τ, encodeContingency .discrete "t" t bins store = .ok () after ∧
      (∀ v ∈ t.first ++ t.second, store.Allows v (σ v)) ∧ store.Completes after t σ τ ∧ t.Holds bins τ := by
  intro t bins
  let store : Store := {
    vars := {
      arena := #[{ name := "a", domain := .finite ⟨[1], by decide⟩ },
        { name := "b", domain := .finite ⟨[1, 3], by decide⟩ }, truthVariable "cell", truthVariable "row",
        truthVariable "column"]
      names := ∅, ratio := 0.0, changed := #[], trail := [], depth := 0 }
    constraints := #[], watchers := #[[], [], [], [], []], config := {}, posted := #[] }
  let name := contingencyName "t" 0 0 0
  let named := store.openBatch.extended name (.finite (.range 0 1))
  have created : newBool name store.openBatch = .ok ⟨5⟩ named := by
    rw [newBool, addVar_eq]
    simp [store, openBatch, named, Variables.size]
  obtain ⟨after, ran⟩ : ∃ after, encodeContingency .discrete "t" t bins store = .ok () after := by
    have checks {check : StoreM Unit} {rest : Unit → StoreM Unit} (passes : check store = .ok () store)
        (others : ∃ after, rest () store = .ok () after) : ∃ after, (check >>= rest) store = .ok () after :=
      exists_ok_bind passes others
    refine checks rfl (checks rfl (checks rfl (checks rfl (checks rfl (checks rfl (exists_ok_batch ?_))))))
    simp only [newCells, t, bins, List.zipIdx, List.zip, List.zipWith, List.mapM_cons, List.mapM_nil, newCell,
      newIndicator, pure_bind, bind_assoc]
    refine exists_ok_bind created (exists_ok_of_succeeds ?_)
    decide +kernel
  have proper : ∀ bin ∈ bins.rows ++ bins.columns, bin.Proper := by decide +kernel
  have separated (σ : Assignment) : t.Separated bins σ := ContingencyTable.separated_of_ofBins rfl proper
  have apart : ∀ v ∈ t.entryVars, v ∉ t.first ∧ v ∉ t.second := by decide
  let σ : Assignment := fun _ => .int 1
  have samples : ∀ v ∈ t.first ++ t.second, store.Allows v (σ v) := by
    intro v member
    have cases : v = ⟨0⟩ ∨ v = ⟨1⟩ := by simpa [t] using member
    rcases cases with rfl | rfl
    · exact ⟨_, rfl, (by decide : (1 : Int64).toInt ∈ [1])⟩
    · exact ⟨_, rfl, (by decide : (1 : Int64).toInt ∈ [1, 3])⟩
  have choices : ∀ entry ∈ t.entries bins σ, ∃ c, store.Allows entry.1 c ∧ c.reading = entry.2 := by
    intro entry member
    have few : entry.2 ≤ 1 := ContingencyTable.le_of_mem_entries (separated σ) member
    have known : entry.1 ∈ t.entryVars := by
      have keys : (t.entries bins σ).map Prod.fst = t.entryVars :=
        ContingencyTable.map_fst_entries ⟨rfl, rfl, by decide, rfl, rfl⟩
      rw [← keys]
      exact List.mem_map_of_mem member
    obtain ⟨name, found⟩ : ∃ name, store.vars.get? entry.1 = some (truthVariable name) := by
      have cases : entry.1 = ⟨2⟩ ∨ entry.1 = ⟨3⟩ ∨ entry.1 = ⟨4⟩ := by simpa [ContingencyTable.entryVars, t] using known
      rcases cases with same | same | same
      · exact ⟨"cell", by rw [same]; rfl⟩
      · exact ⟨"row", by rw [same]; rfl⟩
      · exact ⟨"column", by rw [same]; rfl⟩
    rcases Nat.le_one_iff_eq_zero_or_eq_one.1 few with none | one
    · exact ⟨.int 0, ⟨_, found, admits_truthVariable_iff.2 (.inl rfl)⟩, by simp [none]⟩
    · exact ⟨.int 1, ⟨_, found, admits_truthVariable_iff.2 (.inr rfl)⟩, by simp [one]⟩
  obtain ⟨means, -, extended⟩ := encodeContingency_counts (by decide) apart ran
  obtain ⟨τ, completes⟩ := (extended σ samples choices).1.2 (separated σ)
  exact ⟨store, after, σ, τ, ran, samples, completes, (means τ completes.solves).1⟩

/-- A table of one sample, with three rows and one column. -/
def ContingencyTable.narrow : ContingencyTable where
  first := [⟨0⟩]
  second := [⟨1⟩]
  cells := [[⟨2⟩], [⟨3⟩], [⟨4⟩]]
  rowMarginals := [⟨5⟩, ⟨6⟩, ⟨7⟩]
  columnMarginals := [⟨8⟩]

/-- Crossing rows, and a column that meets all of them. -/
def ContingencyBins.crossing : ContingencyBins where
  rows := Bin.crossing
  columns := [⟨0.0, 10.0⟩]

theorem ContingencyBins.ofBins_crossing :
    ofBins ContingencyBins.crossing.rows ContingencyBins.crossing.columns = .ok .crossing := by
  rw [ofBins, show Bin.check "contingency rows" ContingencyBins.crossing.rows = .ok () from Bin.check_crossing _]
  rfl

/-- A sample of two 6s, with entries that can be large enough. -/
def Store.sixes : Store :=
  fresh.ranging [("a", 6, 6), ("b", 6, 6), ("x", 0, 1), ("y", 0, 1), ("z", 0, 1), ("p", 0, 1), ("q", 0, 1), ("r", 0, 1),
    ("t", 0, 3)]

theorem Store.reachable_sixes : Reachable [] sixes :=
  reachable_ranging reachable_fresh (by decide) (by decide) (by simp [fresh, Variables.empty])

theorem Store.leads_encodeContingency_crossing :
    Leads (encodeContingency .discrete "t" .narrow .crossing) sixes () fun encoded =>
      encoded.propagation.ending ≠ .settled ∧ encoded.propagation.ending ≠ .capped := by
  have free (name : String) (unused : ([("a", 6, 6), ("b", 6, 6), ("x", 0, 1), ("y", 0, 1), ("z", 0, 1), ("p", 0, 1),
      ("q", 0, 1), ("r", 0, 1), ("t", 0, 3)] : List (String × Int × Int)).any (·.1 == name) = false) :
      sixes.openBatch.vars.names.contains name = false :=
    contains_ranging_fresh.trans unused
  refine .check rfl (.check rfl (.check rfl (.check rfl (.check rfl (.check rfl (.batch ?_))))))
  simp only [newCells, ContingencyTable.narrow, ContingencyBins.crossing, Bin.crossing, List.zipIdx, List.zip,
    List.zipWith, List.mapM_cons, List.mapM_nil, newCell, pure_bind, bind_assoc]
  refine .newIndicator (free _ (by decide)) rfl (by decide +kernel) (.bind (a := ()) rfl ?_)
  refine .newIndicator ?_ rfl (by decide +kernel) (.bind (a := ()) rfl ?_)
  · exact names_contains_extended.trans (Bool.or_eq_false_iff.2 ⟨by decide, free _ (by decide)⟩)
  refine .newIndicator ?_ rfl (by decide +kernel) (.bind (a := ()) rfl (leads_of_passes ?_))
  · refine names_contains_extended.trans (Bool.or_eq_false_iff.2 ⟨by decide, ?_⟩)
    exact names_contains_extended.trans (Bool.or_eq_false_iff.2 ⟨by decide, free _ (by decide)⟩)
  decide +kernel

namespace ContingencyTable

theorem canBe_crossing (σ : Assignment) :
    ∀ entry ∈ narrow.entries .crossing σ, Store.sixes.vars.CanBe entry.1 entry.2 ∧ entry.2 ≤ 3 := by
  have few (row column : Bin) : narrow.tally σ row column ≤ 1 := List.countP_le_length
  have canBe {v : Var} {x : Variable} {count : Nat} (hi : Nat) (found : Store.sixes.vars.get? v = some x)
      (domain : x.domain = .finite (.range 0 hi)) (small : count ≤ hi) (most : hi ≤ 3) :
      Store.sixes.vars.CanBe v count ∧ count ≤ 3 :=
    ⟨(Variables.canBe_range_iff found domain).2 ⟨Int.natCast_nonneg _, by exact_mod_cast small⟩, small.trans most⟩
  have cell {v : Var} {x : Variable} {row column : Bin} (found : Store.sixes.vars.get? v = some x)
      (domain : x.domain = .finite (.range 0 (1 : Nat))) :
      Store.sixes.vars.CanBe v (narrow.tally σ row column) ∧ narrow.tally σ row column ≤ 3 :=
    canBe 1 found domain (few row column) (by norm_num)
  have marginal {v : Var} {x : Variable} {row column : Bin} (found : Store.sixes.vars.get? v = some x)
      (domain : x.domain = .finite (.range 0 (1 : Nat))) :
      Store.sixes.vars.CanBe v ([narrow.tally σ row column].sum : Nat) ∧ [narrow.tally σ row column].sum ≤ 3 :=
    canBe 1 found domain (List.sum_singleton.trans_le (few row column)) (by norm_num)
  simp only [entries, ContingencyBins.crossing, Bin.crossing, List.zip_cons_cons, List.zip_nil_right, List.map_cons,
    List.map_nil, List.flatMap_cons, List.flatMap_nil, List.cons_append, List.nil_append, List.append_nil,
    List.forall_mem_cons, narrow]
  refine ⟨cell rfl rfl, cell rfl rfl, cell rfl rfl, marginal rfl rfl, marginal rfl rfl, marginal rfl rfl,
    canBe 3 rfl rfl ?_ le_rfl, by simp⟩
  have column (bin : Bin) := few bin ⟨0.0, 10.0⟩
  have first := column ⟨0.0, 10.0⟩
  have second := column ⟨20.0, 2.0⟩
  have third := column ⟨5.0, 8.0⟩
  simp only [narrow] at first second third
  simp only [List.sum_cons, List.sum_nil]
  omega

/-- The sample belongs to the first and to the last cell. -/
theorem not_separated_crossing : ¬ narrow.Separated .crossing fun _ => .int 6 := by
  classical
  intro separated
  have few := separated (⟨0⟩, ⟨1⟩) (List.mem_singleton_self _)
  obtain ⟨first, third⟩ := Bin.has_crossing
  rw [hits_eq_mul] at few
  simp only [ContingencyBins.crossing, Bin.crossing, List.countP_cons, List.countP_nil, first, third, decide_true,
    if_true] at few
  omega

end ContingencyTable

/-- A table with crossing rows has no solution for a sample that lies in two of them, though all numbers that the sample
    makes the entries are in the domains. -/
theorem Store.encodeContingency_excludes_table : ∃ encoded σ, Reachable [] sixes ∧
    ContingencyBins.ofBins ContingencyBins.crossing.rows ContingencyBins.crossing.columns = .ok .crossing ∧
    encodeContingency .discrete "t" .narrow .crossing sixes = .ok () encoded ∧
    (ContingencyTable.narrow.entryVars ++ ([⟨0⟩, ⟨1⟩] : List Var)).Nodup ∧ sixes.Allows ⟨0⟩ (σ ⟨0⟩) ∧ sixes.Allows ⟨1⟩ (σ ⟨1⟩) ∧
    (∀ entry ∈ ContingencyTable.narrow.entries .crossing σ, ∃ c, sixes.Allows entry.1 c ∧ c.reading = entry.2) ∧
    ¬ ∃ τ, sixes.Completes encoded .narrow σ τ := by
  obtain ⟨encoded, ran, -⟩ := leads_encodeContingency_crossing
  have apart : ∀ v ∈ ContingencyTable.narrow.entryVars, v ∉ [(⟨0⟩ : Var)] ∧ v ∉ [(⟨1⟩ : Var)] := by decide
  refine ⟨encoded, fun _ => .int 6, reachable_sixes, ContingencyBins.ofBins_crossing, ran, by decide,
    ⟨_, rfl, (by decide : (6 : Int64).toInt ∈ [6])⟩, ⟨_, rfl, (by decide : (6 : Int64).toInt ∈ [6])⟩,
    fun entry member => ?_, ?_⟩
  · obtain ⟨canBe, small⟩ := ContingencyTable.canBe_crossing _ entry member
    exact exists_allows canBe (small.trans_lt (by norm_num))
  · rintro ⟨τ, completes⟩
    exact ContingencyTable.not_separated_crossing (completes.separated apart ran)

end

end StatBounds
