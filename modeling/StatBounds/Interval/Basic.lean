import StatBounds.Binary64.Basic
import StatBounds.Decimal.Positional

/-!
# Closed intervals

An interval holds the extended reals between two binary64 bounds. It is empty iff its lower bound lies
above its upper one, so there are many empty intervals; operations that produce one always produce
`Interval.empty`.
-/

namespace StatBounds

open Binary64 (infinity larger smaller)

/-- A closed interval of extended reals, empty iff `lo > hi`. -/
structure Interval where
  lo : Float
  hi : Float
  deriving DecidableEq

namespace Interval

/-- The whole extended line. -/
def entire : Interval := { lo := -infinity, hi := infinity }

/-- The empty interval. -/
def empty : Interval := { lo := infinity, hi := -infinity }

/-- All numbers from zero up. -/
def nonNegative : Interval := { lo := 0.0, hi := infinity }

instance : Inhabited Interval where
  default := entire

/-- The interval between two bounds. A bound that is no number gives no information, so it widens to
    the infinity of its side. -/
def ofBounds (lo hi : Float) : Interval :=
  { lo := if lo.isNaN then -infinity else lo
    hi := if hi.isNaN then infinity else hi }

def point (x : Float) : Interval :=
  ofBounds x x

/-- Whether no number lies in the interval. -/
def isEmpty (i : Interval) : Bool :=
  i.lo > i.hi

/-- The distance of the bounds, zero for an empty interval. -/
def width (i : Interval) : Float :=
  if i.isEmpty then 0.0 else i.hi - i.lo

/-- The middle of a bounded interval, the finite bound of a half-line, and zero otherwise. -/
def midpoint (i : Interval) : Float :=
  match i.lo.isFinite, i.hi.isFinite with
  | true, true => i.lo + (i.hi - i.lo) / 2.0
  | true, false => i.lo
  | false, true => i.hi
  | false, false => 0.0

def contains (i : Interval) (x : Float) : Bool :=
  i.lo ≤ x && x ≤ i.hi

/-- Whether zero lies between the bounds. -/
def containsZero (i : Interval) : Bool :=
  i.contains 0.0

/-- The number of infinite bounds. -/
def unboundedSides (i : Interval) : Nat :=
  i.lo.isInf.toNat + i.hi.isInf.toNat

/-- Whether two intervals have numerically equal bounds; the two zeros are equal. -/
def sameBounds (i j : Interval) : Bool :=
  i.lo == j.lo && i.hi == j.hi

/-- The numbers that lie in both intervals. -/
def intersect (i j : Interval) : Interval :=
  if i.isEmpty || j.isEmpty then
    empty
  else
    let meet : Interval := { lo := larger i.lo j.lo, hi := smaller i.hi j.hi }
    if meet.isEmpty then empty else meet

/-- The smallest interval that holds both intervals. -/
def hull (i j : Interval) : Interval :=
  if i.isEmpty then j
  else if j.isEmpty then i
  else { lo := smaller i.lo j.lo, hi := larger i.hi j.hi }

/-- The bounds rounded to the integers inside. -/
def inward (i : Interval) : Interval :=
  { lo := Binary64.ceiling i.lo, hi := Binary64.floor i.hi }

/-- The bounds in brackets, or the sign of the empty set. -/
def text (i : Interval) : String :=
  if i.isEmpty then
    "∅"
  else
    "[" ++ Binary64.text i.lo ++ ", " ++ Binary64.text i.hi ++ "]"

end Interval

end StatBounds
