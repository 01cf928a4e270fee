import StatBounds.Domain.Basic
import StatBounds.Error

/-!
# Bins

Half-open intervals into which values are counted, and lists of them that are sorted and pairwise
disjoint.
-/

namespace StatBounds

/-- A half-open interval `[lb, ub)`, with infinite bounds allowed. The bounds may also be the wrong way round or not be
    numbers. -/
structure Bin where
  lb : Float
  ub : Float
  deriving DecidableEq

namespace Bin

/-- The lower bound comes first. -/
def Proper (b : Bin) : Prop :=
  b.lb < b.ub

instance (b : Bin) : Decidable b.Proper :=
  inferInstanceAs (Decidable (b.lb < b.ub))

/-- The bin between two bounds, the lower of which comes first. -/
def ofBounds (lb ub : Float) : Except Error Bin :=
  if lb < ub then .ok { lb, ub } else .error (.malformedBin lb ub)

def contains (b : Bin) (x : Float) : Bool :=
  b.lb ≤ x && x < b.ub

/-- The smallest closed interval that holds the bin. -/
def closure (b : Bin) : Interval :=
  .ofBounds b.lb b.ub

/-- The bins between neighbouring boundaries. -/
def betweenAll : List Float → Except Error (List Bin)
  | lb :: ub :: rest => do
      let bin ← ofBounds lb ub
      let bins ← betweenAll (ub :: rest)
      return bin :: bins
  | _ => .ok []

/-- The contiguous bins of a strictly increasing list of at least two boundaries. -/
def ofBoundaries (boundaries : List Float) : Except Error (List Bin) :=
  if boundaries.length < 2 then
    .error (.fewBoundaries boundaries.length)
  else
    betweenAll boundaries

/-- Check that each bin of a list ends before the next one begins. Whether a bin itself begins before it ends is not
    looked at. -/
def checkOrder (task : String) : List Bin → Except Error Unit
  | a :: b :: rest =>
      if a.ub > b.lb then
        .error (.overlappingBins task a.lb a.ub b.lb b.ub)
      else
        checkOrder task (b :: rest)
  | _ => .ok ()

/-- Check that the bins for a task are sorted, disjoint and not missing altogether. -/
def check (task : String) (bins : List Bin) : Except Error Unit :=
  if bins.isEmpty then .error (.noBins task) else checkOrder task bins

/-- Whether each bin of a list begins where the one before it ends. -/
def gapFree : List Bin → Bool
  | a :: b :: rest => a.ub == b.lb && gapFree (b :: rest)
  | _ => true

/-- Whether every admissible value is known to lie in some bin. A real domain is only known to be
    covered by bins without gaps. -/
def covers (bins : List Bin) : Domain → Bool
  | .finite s => s.values.all fun v => bins.any fun b => b.contains (Binary64.ofInt v)
  | .real r =>
      match bins.head?, bins.getLast? with
      | some first, some last =>
          gapFree bins && !r.interval.isEmpty && first.lb ≤ r.interval.lo && r.interval.hi < last.ub
      | _, _ => false

end Bin

end StatBounds
