import StatBounds.Encoding.Series

/-!
# Posting bin counts

Bin counts as one constraint, beside the encoding of histograms by indicators. Whether a placement
exists at all is checked when the constraint is posted.
-/

namespace StatBounds.Store

def checkCount (v : Var) : StoreM Unit := do
  let x ← onVars (Variables.fetch v)
  if !x.domain.isFinite then
    throw (.error (.realCount x.name))

/-- Run an operation on the variables for its result alone. -/
def probe {α : Type} (operation : NarrowM α) : StoreM Unit := do
  match operation (← get).vars with
  | .ok _ _ => return ()
  | .error failure _ => throw failure

/-- Post that every item lies in exactly one bin, and that counts are the numbers of items in each. -/
def postBinCount (items : List Var) (bins : List Bin) (counts : List Var) : StoreM Unit := do
  let filter ← orFail (BinCountFilter.ofBins bins)
  if counts.length ≠ bins.length then
    throw (.error (.countVariables "bincounts" bins.length counts.length))
  checkVars items
  checkVars counts
  counts.forM checkCount
  let constraint : StatBounds.BinCount := { filter, items, counts }
  probe constraint.filtered
  post (.binCount constraint)

end StatBounds.Store
