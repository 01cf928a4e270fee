import StatBounds.Encoding.Series

/-!
# Histograms

Counting a series into bins by indicators: one for each item and bin, where the indicators of an item
add up to one and those of a bin add up to its count.
-/

namespace StatBounds.Store

def histogramName (name : String) (item bin : Nat) : String :=
  name ++ "[" ++ toString item ++ "][" ++ toString bin ++ "]"

/-- The indicators of one item, exactly one of which is 1. -/
def newHistogramRow (kind : SeriesKind) (name : String) (bins : List Bin) (item : Nat) (v : Var) :
    StoreM (List Var) := do
  let row ← bins.zipIdx.mapM fun (bin, b) =>
    newIndicator (histogramName name item b) (kind.membership v bin)
  postExpr (sumOf row) (.point 1.0)
  return row

/-- Post that counts are the numbers of items of a series in each of some bins. -/
def encodeHistogram (kind : SeriesKind) (name : String) (series : List Var) (bins : List Bin)
    (counts : List Var) : StoreM Unit := do
  orFail (Bin.check "encode_histogram" bins)
  if counts.length ≠ bins.length then
    throw (.error (.countVariables "encode_histogram" bins.length counts.length))
  checkSeries "encode_histogram" kind series
  checkVars counts
  batch do
    let rows ← series.zipIdx.mapM fun (v, item) => newHistogramRow kind name bins item v
    counts.zipIdx.forM fun (count, b) =>
      postSum (rows.filterMap fun row => row[b]?) count

end StatBounds.Store
