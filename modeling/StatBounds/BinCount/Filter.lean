import StatBounds.Bin
import StatBounds.Transport.Basic

/-!
# Filtering by bin counts

Every item lies in exactly one bin, and every bin holds a number of items within its range. The filter
keeps the values of an item that lie in a bin some such placement gives it, and reduces each range to
the counts that placements reach.
-/

namespace StatBounds

/-- Sorted, disjoint bins into which items are counted. -/
structure BinCountFilter where
  bins : List Bin
  deriving DecidableEq

/-- What is left of the items and of the count ranges. -/
structure Filtered where
  items : List Domain
  counts : List (Nat × Nat)
  deriving DecidableEq

namespace BinCountFilter

/-- The filter over given bins. -/
def ofBins (bins : List Bin) : Except Error BinCountFilter := do
  Bin.check "bincounts" bins
  return { bins }

/-- The filter over the bins between neighbouring boundaries. -/
def ofBoundaries (boundaries : List Float) : Except Error BinCountFilter := do
  ofBins (← Bin.ofBoundaries boundaries)

/-- The numbers of the bins that hold an admissible value of an item. -/
def binsOf (f : BinCountFilter) (item : Domain) : List Nat :=
  (f.bins.zipIdx.filter fun (bin, _) => item.meets bin.lb bin.ub).map Prod.snd

/-- The bins of each item, where every item has to have one. -/
def allowed (f : BinCountFilter) (items : List Domain) : Except Failure (List (List Nat)) :=
  items.zipIdx.mapM fun (item, i) =>
    match f.binsOf item with
    | [] => .error (.error (.itemInNoBin i))
    | bins => .ok bins

/-- Carry a broken rule over to an operation that may also fail with an error. -/
def orFault {α : Type} : Except Fault α → Except Failure α
  | .ok a => .ok a
  | .error fault => .error (.fault fault)

/-- Check that the number of items is between the sums of the least and of the greatest counts. -/
def checkCapacity (items : Nat) (bounds : List (Nat × Nat)) : Except Failure Unit := do
  let lower ← orFault (Transportation.countSum (bounds.map Prod.fst))
  let upper ← orFault (Transportation.countSum (bounds.map Prod.snd))
  if lower > items then
    throw (.error (.lowerCounts lower items))
  if upper < items then
    throw (.error (.upperCounts upper items))

/-- The part of an item that lies in some of the bins: the values of a finite one, and the part of a
    real one between the outermost bounds. -/
def restrictTo (bins : List Bin) : Domain → Domain
  | .finite s => .finite (s.filter fun v => bins.any fun b => b.contains (Binary64.ofInt v))
  | .real r =>
      let cover := bins.foldl (fun cover b => cover.hull b.closure) .empty
      .real { r with interval := r.interval.intersect cover }

/-- The bins that some placement gives to an item. -/
def supported (f : BinCountFilter) (problem : Transportation) (item : Nat) :
    Except Fault (List Bin) := do
  let bins ← f.bins.zipIdx.filterM fun (_, b) => problem.supports item b
  return bins.map Prod.fst

def filter (f : BinCountFilter) (items : List Domain) (counts : List (Nat × Nat)) :
    Except Failure Filtered := do
  if counts.length ≠ f.bins.length then
    throw (.error (.countRanges f.bins.length counts.length))
  let allowed ← f.allowed items
  let bounds := counts.map fun (lo, hi) => (lo, min hi items.length)
  checkCapacity items.length bounds
  let problem ← orFault (Transportation.ofLists allowed bounds)
  if !(← orFault problem.isFeasible) then
    throw (.error .noAssignment)
  let narrowed ← items.zipIdx.mapM fun (item, i) => do
    return restrictTo (← orFault (f.supported problem i)) item
  let ranges ← (List.range f.bins.length).mapM fun b => do
    match ← orFault (problem.countRange b) with
    | some range => return range
    | none => throw (.error (.binWithoutCount b))
  return { items := narrowed, counts := ranges }

end BinCountFilter

/-- The counts from zero to `items` that lie between the extremes of a count variable, compared as
    binary64 numbers. Only a finite domain has any. -/
def countRangeOf (items : Nat) : Domain → Option (Nat × Nat)
  | .finite s => do
      let lo ← Binary64.toInt? (Binary64.larger s.hull.lo 0.0)
      let hi ← Binary64.toInt? (Binary64.smaller s.hull.hi (Binary64.ofNat items))
      if lo ≤ hi then some (lo.toNat, hi.toNat) else none
  | .real _ => none

end StatBounds
