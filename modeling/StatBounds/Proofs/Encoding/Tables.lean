import StatBounds.Proofs.Encoding.Indicators

/-! # What tables add to a store

A contingency table has an indicator for each cell and sample. They are created cell by cell and row by row, while the
constraint for a sample and those for the marginals look at them across cells.
-/

namespace StatBounds

variable {σ τ : Assignment} {kind : SeriesKind} {t : ContingencyTable} {bins : ContingencyBins}

/-- The pairs of values that a table counts. -/
abbrev ContingencyTable.samples (t : ContingencyTable) : List (Var × Var) :=
  t.first.zip t.second

/-- The variables of a table beside the samples: its cells and marginals. -/
def ContingencyTable.entryVars (t : ContingencyTable) : List Var :=
  t.cells.flatten ++ (t.rowMarginals ++ t.columnMarginals)

namespace Store

variable {name : String} {store after base : Store} {before : List String} {first : Nat}

/-! ## Layout -/

def tableCell (kind : SeriesKind) (first : Nat) (samples : List (Var × Var)) (columns : Nat) (row column : Bin × Nat)
    (count : Var) : List Constraint :=
  (samples.zipIdx.map fun sample => .reified {
      indicator := gridVar first samples.length (row.2 * columns + column.2) sample.2
      atoms := kind.membership sample.1.1 row.1 ++ kind.membership sample.1.2 column.1 }) ++
    [.sum {
      terms := (List.range samples.length).map (gridVar first samples.length (row.2 * columns + column.2))
      total := count }]

/-- The bins are known to hold both values of a sample. -/
def coversSample (store : Store) (bins : ContingencyBins) (sample : Var × Var) : Bool :=
  match store.vars.get? sample.1, store.vars.get? sample.2 with
  | some x, some y => Bin.covers bins.rows x.domain && Bin.covers bins.columns y.domain
  | _, _ => false

def sampleVars (first samples : Nat) (rows columns sample : Nat) : List Var :=
  (List.range rows).flatMap fun i => (List.range columns).map fun j => gridVar first samples (i * columns + j) sample

def tableSample (store : Store) (bins : ContingencyBins) (samples : Nat) (sample : (Var × Var) × Nat) : Constraint :=
  .formula (.ofExpr
    (sumOf (sampleVars store.vars.size samples bins.rows.length bins.columns.length sample.2))
    (.ofBounds (if store.coversSample bins sample.1 then 1.0 else 0.0) 1.0))

def tableCells (kind : SeriesKind) (first : Nat) (t : ContingencyTable) (bins : ContingencyBins) : List Constraint :=
  (bins.rows.zipIdx.zip t.cells).flatMap fun row => (bins.columns.zipIdx.zip row.2).flatMap fun column =>
    tableCell kind first t.samples bins.columns.length row.1 column.1 column.2

def tableConstraints (kind : SeriesKind) (store : Store) (t : ContingencyTable) (bins : ContingencyBins) :
    List Constraint :=
  tableCells kind store.vars.size t bins ++
    (t.samples.zipIdx.map (tableSample store bins t.samples.length) ++
      ((t.cells.zip t.rowMarginals).map (fun row => .sum { terms := row.1, total := row.2 }) ++
        t.columnMarginals.zipIdx.map fun column => .sum { terms := t.column column.2, total := column.1 }))

def cellNames (name : String) (samples : List (Var × Var)) (row column : Nat) : List String :=
  samples.zipIdx.map fun sample => contingencyName name row column sample.2

def tableNames (name : String) (t : ContingencyTable) (bins : ContingencyBins) : List String :=
  (bins.rows.zipIdx.zip t.cells).flatMap fun row => (bins.columns.zipIdx.zip row.2).flatMap fun column =>
    cellNames name t.samples row.1.2 column.1.2

theorem map_zip_zipIdx {α β γ : Type} {as : List α} {bs : List β} (lengths : bs.length = as.length) (f : Nat → γ) :
    ((as.zipIdx.zip bs).map fun pair => f pair.1.2) = (List.range as.length).map f := by
  have short : as.zipIdx.length ≤ bs.length := by
    rw [List.length_zipIdx, lengths]
  calc (as.zipIdx.zip bs).map (fun pair => f pair.1.2)
      = ((as.zipIdx.zip bs).map Prod.fst).map fun numbered => f numbered.2 := by rw [List.map_map]; rfl
    _ = as.zipIdx.map fun numbered => f numbered.2 := by rw [List.map_fst_zip short]
    _ = (List.range as.length).map f := map_zipIdx_snd as f

theorem length_cellNames {samples : List (Var × Var)} {row column : Nat} :
    (cellNames name samples row column).length = samples.length := by
  simp [cellNames]

theorem adds_newCell {samples : List (Var × Var)} {row column : Bin × Nat} {count : Var} {columns : Nat}
    (started : before.length = (row.2 * columns + column.2) * samples.length) :
    Adds base before (newCell kind name samples count row column) (cellNames name samples row.2 column.2)
      (tableCell kind base.vars.size samples columns row column count)
      ((List.range samples.length).map
        (gridVar base.vars.size samples.length (row.2 * columns + column.2))) := by
  have indicators : Adds base before
      (samples.zipIdx.mapM fun sample => newIndicator (contingencyName name row.2 column.2 sample.2)
        (kind.membership sample.1.1 row.1 ++ kind.membership sample.1.2 column.1))
      (cellNames name samples row.2 column.2) _ _ := adds_newIndicators started
  have cell : Adds base before (newCell kind name samples count row column) (_ ++ ([] ++ [])) (_ ++ ([_] ++ [])) _ :=
    indicators.bind ((Adds.postSum _ _).bind (.pure _))
  rwa [List.append_nil, List.append_nil, List.append_nil] at cell

/-- The cells of a row begin one after another. -/
theorem adds_newRow {samples : List (Var × Var)} {row : Bin × Nat} {columns : List Bin} {counts : List Var}
    (lengths : counts.length = columns.length)
    (started : before.length = row.2 * (columns.length * samples.length)) :
    Adds base before
      ((columns.zipIdx.zip counts).mapM fun column => newCell kind name samples column.2 row column.1)
      ((columns.zipIdx.zip counts).flatMap fun column => cellNames name samples row.2 column.1.2)
      ((columns.zipIdx.zip counts).flatMap fun column =>
        tableCell kind base.vars.size samples columns.length row column.1 column.2)
      ((List.range columns.length).map fun j => (List.range samples.length).map
        (gridVar base.vars.size samples.length (row.2 * columns.length + j))) := by
  have step : ∀ column ∈ columns.zipIdx.zip counts, ∀ before : List String,
      before.length = row.2 * columns.length * samples.length + column.1.2 * samples.length →
        Adds base before (newCell kind name samples column.2 row column.1) _ _ _ :=
    fun column _ before started => adds_newCell (by rw [started, Nat.add_mul])
  rw [← map_zip_zipIdx lengths]
  refine Adds.mapM (numbered_zip (numbered_zipIdx columns)) (fun _ _ => length_cellNames) step ?_
  rw [started, Nat.zero_mul, Nat.add_zero, Nat.mul_assoc]

def cellVars (first samples rows columns : Nat) : List (List Var) :=
  (List.range rows).flatMap fun i => (List.range columns).map fun j =>
    (List.range samples).map (gridVar first samples (i * columns + j))

theorem adds_newCells (rows : t.cells.length = bins.rows.length)
    (columns : ∀ row ∈ t.cells, row.length = bins.columns.length) :
    Adds base [] (newCells kind name t bins) (tableNames name t bins) (tableCells kind base.vars.size t bins)
      (cellVars base.vars.size t.samples.length bins.rows.length bins.columns.length) := by
  have shape (row : (Bin × Nat) × List Var) (member : row ∈ bins.rows.zipIdx.zip t.cells) :
      row.2.length = bins.columns.length :=
    columns row.2 (List.of_mem_zip member).2
  have widths : ∀ row ∈ bins.rows.zipIdx.zip t.cells, ((bins.columns.zipIdx.zip row.2).flatMap fun column =>
      cellNames name t.samples row.1.2 column.1.2).length =
        bins.columns.length * t.samples.length := by
    intro row member
    simp [List.length_flatMap, length_cellNames, List.length_zip, shape row member]
  have step : ∀ row ∈ bins.rows.zipIdx.zip t.cells, ∀ before : List String,
      before.length = 0 + row.1.2 * (bins.columns.length * t.samples.length) →
        Adds base before ((bins.columns.zipIdx.zip row.2).mapM fun column =>
          newCell kind name t.samples column.2 row.1 column.1) _ _ _ :=
    fun row member before started => adds_newRow (shape row member) (by rw [started, Nat.zero_add])
  have all := Adds.mapM (numbered_zip (numbered_zipIdx bins.rows)) widths step
    (by rw [List.length_nil, Nat.zero_mul, Nat.add_zero])
  rw [map_zip_zipIdx rows fun i => (List.range bins.columns.length).map fun j =>
    (List.range t.samples.length).map
      (gridVar base.vars.size t.samples.length (i * bins.columns.length + j))] at all
  have cells : Adds base [] (newCells kind name t bins) (_ ++ []) (_ ++ []) _ := all.bind (.pure _)
  rw [List.append_nil, List.append_nil, ← List.flatMap_def] at cells
  exact cells

theorem filterMap_cellVars {samples rows columns sample : Nat} (inside : sample < samples) :
    (cellVars first samples rows columns).filterMap (fun cell => cell[sample]?) =
      sampleVars first samples rows columns sample := by
  simp only [cellVars, sampleVars, List.filterMap_flatMap, List.filterMap_map]
  refine List.flatMap_congr fun i _ => ?_
  rw [← List.filterMap_eq_map]
  refine List.filterMap_congr fun j _ => ?_
  simp [List.getElem?_range inside]

/-- A variable that was there before the encoding is looked up as it was. -/
theorem Adds.of_fetch {α : Type} {v : Var} {x : Variable} {rest : Variable → StoreM α} {names : List String}
    {constraints : List Constraint} {b : α} (found : base.vars.get? v = some x)
    (tail : Adds base before (rest x) names constraints b) :
    Adds base before (onVars (Variables.fetch v) >>= rest) names constraints b := by
  intro store older extended
  have old : v.index < base.vars.size := (Array.getElem?_eq_some_iff.1 found).1
  have same : store.vars.get? v = some x := (extended.get?_old old).trans found
  have fetched : onVars (Variables.fetch v) store = .ok x store := by
    rw [onVars, fetch_eq same]
  have rested := tail store older extended
  simp only [Ensures, Bind.bind, EStateM.bind, fetched]
  exact rested

theorem adds_postSample {samples : List (Var × Var)} {sample : (Var × Var) × Nat} (inside : sample.2 < samples.length)
    (known : base.vars.contains sample.1.1 = true) (known' : base.vars.contains sample.1.2 = true) :
    Adds base before
      (postSample bins (cellVars base.vars.size samples.length bins.rows.length bins.columns.length) sample.2
        sample.1.1 sample.1.2) [] [tableSample base bins samples.length sample] ⟨⟩ := by
  obtain ⟨x, found⟩ := get?_of_contains known
  obtain ⟨y, found'⟩ := get?_of_contains known'
  have covered : base.coversSample bins sample.1 =
      (Bin.covers bins.rows x.domain && Bin.covers bins.columns y.domain) := by
    simp only [coversSample, found, found']
  refine Adds.of_fetch found (Adds.of_fetch found' ?_)
  rw [tableSample, covered, filterMap_cellVars inside]
  exact .postExpr _ _

end Store

/-- The lists of a table fit to each other and to the bins. -/
structure ContingencyTable.Fits (t : ContingencyTable) (bins : ContingencyBins) : Prop where
  lengths : t.first.length = t.second.length
  rows : t.cells.length = bins.rows.length
  columns : ∀ row ∈ t.cells, row.length = bins.columns.length
  rowMarginals : t.rowMarginals.length = bins.rows.length
  columnMarginals : t.columnMarginals.length = bins.columns.length

/-- A check that did not refuse to go on. -/
theorem of_refuse_eq_ok {α : Type} {condition : Prop} [Decidable condition] {e : Error}
    {rest : PUnit → Except Error α} {a : α} (ran : (if condition then throw e >>= rest else rest ⟨⟩) = .ok a) :
    ¬ condition ∧ rest ⟨⟩ = .ok a := by
  split_ifs at ran with refused
  · cases ran
  · exact ⟨refused, ran⟩

theorem ContingencyTable.fits_of_checkShape (checked : t.checkShape bins = .ok ()) : t.Fits bins := by
  unfold checkShape at checked
  dsimp only [ContingencyBins.shape] at checked
  obtain ⟨samples, rest⟩ := of_refuse_eq_ok checked
  obtain ⟨cells, rest⟩ := of_refuse_eq_ok rest
  obtain ⟨rows, rest⟩ := of_refuse_eq_ok rest
  split_ifs at rest with columns
  rw [not_or] at cells
  refine ⟨not_not.1 samples, not_not.1 cells.1, fun row member => ?_, not_not.1 rows, not_not.1 columns⟩
  by_contra other
  exact cells.2 (List.any_eq_true.2 ⟨row, member, by simpa using other⟩)

namespace Store

/-- What is checked before a table is posted: that its lists fit, and that all variables exist. -/
structure ChecksTable (store : Store) (t : ContingencyTable) (bins : ContingencyBins) : Prop where
  fits : t.Fits bins
  first : ∀ v ∈ t.first, store.vars.contains v = true
  second : ∀ v ∈ t.second, store.vars.contains v = true
  entries : ∀ v ∈ t.entryVars, store.vars.contains v = true

/-- A table adds one indicator for each cell and sample, and the constraints that tie them to the samples, the cells
    and the marginals. -/
theorem extends_encodeContingency (ran : encodeContingency kind name t bins store = .ok () after) :
    store.ChecksTable t bins ∧
      store.Extends after (tableNames name t bins) (tableConstraints kind store t bins) := by
  obtain ⟨_, shape, rest⟩ := (Checks.orFail _).peel ran
  obtain ⟨_, first, rest⟩ := (Checks.checkSeries _ kind t.first).peel rest
  obtain ⟨_, second, rest⟩ := (Checks.checkSeries _ kind t.second).peel rest
  have eachRow := fun row (_ : row ∈ t.cells) => Checks.checkVars row
  obtain ⟨_, cells, rest⟩ := (Checks.forM eachRow).peel rest
  obtain ⟨_, rows, rest⟩ := (Checks.checkVars t.rowMarginals).peel rest
  obtain ⟨_, columns, rest⟩ := (Checks.checkVars t.columnMarginals).peel rest
  have fits : t.Fits bins := ContingencyTable.fits_of_checkShape (eq_ok_of_orFail shape)
  have first := contains_of_checkSeries first
  have second := contains_of_checkSeries second
  have entries : ∀ v ∈ t.entryVars, store.vars.contains v = true := by
    intro v member
    rcases List.mem_append.1 member with cell | marginal
    · obtain ⟨row, inTable, inRow⟩ := List.mem_flatten.1 cell
      exact contains_of_checkVars (Checks.peelAll eachRow cells row inTable) v inRow
    · rcases List.mem_append.1 marginal with row | column
      · exact contains_of_checkVars rows v row
      · exact contains_of_checkVars columns v column
  have samples (before : List String) : Adds store.openBatch before
      (t.samples.zipIdx.forM fun sample => postSample bins
        (cellVars store.vars.size t.samples.length bins.rows.length bins.columns.length) sample.2 sample.1.1 sample.1.2)
      [] (t.samples.zipIdx.flatMap fun sample => [tableSample store bins t.samples.length sample]) ⟨⟩ := by
    refine Adds.forM fun sample member => ?_
    have found := List.mem_zipIdx_iff_getElem?.1 member
    have both := List.of_mem_zip (List.mem_of_getElem? found)
    exact adds_postSample (List.getElem?_eq_some_iff.1 found).1 (first _ both.1) (second _ both.2)
  have rowSums (before : List String) : Adds store.openBatch before
      ((t.cells.zip t.rowMarginals).forM fun row => postSum row.1 row.2) []
      ((t.cells.zip t.rowMarginals).flatMap fun row => [.sum { terms := row.1, total := row.2 }]) ⟨⟩ :=
    Adds.forM fun row _ => .postSum _ _
  have columnSums (before : List String) : Adds store.openBatch before
      (t.columnMarginals.zipIdx.forM fun column => postSum (t.column column.2) column.1) []
      (t.columnMarginals.zipIdx.flatMap fun column => [.sum { terms := t.column column.2, total := column.1 }]) ⟨⟩ :=
    Adds.forM fun column _ => .postSum _ _
  simp only [← List.map_eq_flatMap] at samples rowSums columnSums
  refine ⟨⟨fits, first, second, entries⟩, Adds.batch ?_ rest⟩
  rw [← List.append_nil (tableNames name t bins)]
  refine (adds_newCells fits.rows fits.columns).bind ?_
  rw [← List.append_nil []]
  refine (samples _).bind ?_
  rw [← List.append_nil []]
  exact (rowSums _).bind (columnSums _)

end Store

end StatBounds
