import StatBounds.BinCount.Filter
import StatBounds.Variables.Basic

/-!
# Bin counts

The constraint that every item lies in exactly one bin and that count variables tell how many items
each bin holds. It narrows by the filter over the current domains.
-/

namespace StatBounds

/-- Items, bins, and for each bin the variable that counts its items. -/
structure BinCount where
  filter : BinCountFilter
  items : List Var
  counts : List Var
  deriving DecidableEq

namespace BinCount

def label (c : BinCount) : String :=
  "bincounts(" ++ toString c.items.length ++ " items, " ++ toString c.counts.length ++ " bins)"

/-- The items, then the counts. -/
def scope (c : BinCount) : List Var :=
  c.items ++ c.counts

/-- Narrow by the filter over the domains of the items and the ranges of the counts. -/
def filtered (c : BinCount) : NarrowM Filtered := do
  let items ← c.items.mapM fun v => return (← Variables.fetch v).domain
  let ranges ← c.counts.mapM fun v => do
    let count ← Variables.fetch v
    match countRangeOf c.items.length count.domain with
    | some range => return range
    | none => throw (.error (.countOutOfReach count.name c.items.length))
  match c.filter.filter items ranges with
  | .ok filtered => return filtered
  | .error failure => throw failure

def propagate (c : BinCount) : NarrowM Unit := do
  let filtered ← c.filtered
  (c.items.zip filtered.items).forM fun (v, domain) => discard (Variables.restrict v domain)
  (c.counts.zip filtered.counts).forM fun (v, lo, hi) =>
    discard (Variables.narrow v (.ofBounds (Binary64.ofNat lo) (Binary64.ofNat hi)))

end BinCount

end StatBounds
