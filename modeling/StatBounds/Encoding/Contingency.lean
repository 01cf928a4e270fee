import StatBounds.Encoding.Series

/-!
# Contingency tables

Two series of equal length are paired into samples. A cell of the table counts the samples whose first
value lies in a row's bin and whose second value lies in a column's bin; the cells of a row or a column
add up to its marginal.
-/

namespace StatBounds

/-- The bins of the rows and of the columns of a table. -/
structure ContingencyBins where
  rows : List Bin
  columns : List Bin
  deriving DecidableEq

namespace ContingencyBins

/-- A table over bins that are sorted and disjoint in each direction. -/
def ofBins (rows columns : List Bin) : Except Error ContingencyBins := do
  Bin.check "contingency rows" rows
  Bin.check "contingency columns" columns
  return { rows, columns }

def ofBoundaries (rows columns : List Float) : Except Error ContingencyBins := do
  let rows ← Bin.ofBoundaries rows
  let columns ← Bin.ofBoundaries columns
  ofBins rows columns

def shape (bins : ContingencyBins) : Nat × Nat :=
  (bins.rows.length, bins.columns.length)

end ContingencyBins

/-- The variables of a contingency table. -/
structure ContingencyTable where
  /-- The first values of the samples. -/
  first : List Var
  /-- The second values of the samples. -/
  second : List Var
  /-- The cells, row by row. -/
  cells : List (List Var)
  rowMarginals : List Var
  columnMarginals : List Var
  deriving DecidableEq

namespace ContingencyTable

/-- Check that the lists of variables fit to each other and to the bins. -/
def checkShape (t : ContingencyTable) (bins : ContingencyBins) : Except Error Unit := do
  let (rows, columns) := bins.shape
  if t.first.length ≠ t.second.length then
    throw (.seriesLengths t.first.length t.second.length)
  if t.cells.length ≠ rows ∨ t.cells.any (·.length ≠ columns) then
    throw (.cellGrid rows columns)
  if t.rowMarginals.length ≠ rows then
    throw (.rowMarginals rows t.rowMarginals.length)
  if t.columnMarginals.length ≠ columns then
    throw (.columnMarginals columns t.columnMarginals.length)

def column (t : ContingencyTable) (j : Nat) : List Var :=
  t.cells.filterMap fun row => row[j]?

end ContingencyTable

namespace Store

def contingencyName (name : String) (row column sample : Nat) : String :=
  name ++ "[" ++ toString row ++ "][" ++ toString column ++ "]." ++ toString sample

/-- The indicators of one cell, which add up to its count. -/
def newCell (kind : SeriesKind) (name : String) (samples : List (Var × Var)) (count : Var)
    (row column : Bin × Nat) : StoreM (List Var) := do
  let indicators ← samples.zipIdx.mapM fun ((first, second), sample) =>
    newIndicator (contingencyName name row.2 column.2 sample)
      (kind.membership first row.1 ++ kind.membership second column.1)
  postSum indicators count
  return indicators

/-- The indicators of every cell, row by row. -/
def newCells (kind : SeriesKind) (name : String) (t : ContingencyTable) (bins : ContingencyBins) :
    StoreM (List (List Var)) := do
  let samples := t.first.zip t.second
  let rows ← (bins.rows.zipIdx.zip t.cells).mapM fun (row, counts) =>
    (bins.columns.zipIdx.zip counts).mapM fun (column, count) =>
      newCell kind name samples count row column
  return rows.flatten

/-- Post that a sample lies in at most one cell, and in exactly one if the bins cover its domains. -/
def postSample (bins : ContingencyBins) (cells : List (List Var)) (sample : Nat)
    (first second : Var) : StoreM Unit := do
  let x ← onVars (Variables.fetch first)
  let y ← onVars (Variables.fetch second)
  let covered := Bin.covers bins.rows x.domain && Bin.covers bins.columns y.domain
  let indicators := cells.filterMap fun indicators => indicators[sample]?
  postExpr (sumOf indicators) (.ofBounds (if covered then 1.0 else 0.0) 1.0)

def encodeContingency (kind : SeriesKind) (name : String) (t : ContingencyTable)
    (bins : ContingencyBins) : StoreM Unit := do
  orFail (t.checkShape bins)
  checkSeries "contingency" kind t.first
  checkSeries "contingency" kind t.second
  t.cells.forM checkVars
  checkVars t.rowMarginals
  checkVars t.columnMarginals
  batch do
    let cells ← newCells kind name t bins
    (t.first.zip t.second).zipIdx.forM fun ((first, second), sample) =>
      postSample bins cells sample first second
    (t.cells.zip t.rowMarginals).forM fun (row, marginal) => postSum row marginal
    t.columnMarginals.zipIdx.forM fun (marginal, j) => postSum (t.column j) marginal

end Store

end StatBounds
