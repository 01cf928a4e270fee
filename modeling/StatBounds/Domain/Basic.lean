import StatBounds.Domain.IntSet

/-!
# Domains of variables

A variable ranges over a finite set of integers or over a real interval. Both kinds answer the same
questions, so encodings need not tell them apart.
-/

namespace StatBounds

/-- A real interval with the width below which its variable counts as fixed. -/
structure RealDomain where
  interval : Interval
  precision : Float
  deriving DecidableEq

namespace RealDomain

/-- Whether some number of the interval lies in `[lb, ub)`. -/
def meets (r : RealDomain) (lb ub : Float) : Bool :=
  !r.interval.isEmpty && r.interval.lo < ub && r.interval.hi ≥ lb

/-- Whether the interval is no wider than the precision. -/
def isFixed (r : RealDomain) : Bool :=
  !r.interval.isEmpty && r.interval.width ≤ r.precision

end RealDomain

/-- What a variable may still be. -/
inductive Domain where
  /-- One of finitely many integers. Truth values are the integers 0 and 1. -/
  | finite (values : IntSet)
  /-- Any number of an interval. -/
  | real (domain : RealDomain)
  deriving DecidableEq

namespace Domain

def isFinite : Domain → Bool
  | finite _ => true
  | real _ => false

/-- Whether no value is left. -/
def isEmpty : Domain → Bool
  | finite s => s.isEmpty
  | real r => r.interval.isEmpty

/-- The smallest interval that holds the domain. -/
def hull : Domain → Interval
  | finite s => s.hull
  | real r => r.interval

def contains : Domain → Float → Bool
  | finite s, x => s.containsNumber x
  | real r, x => r.interval.contains x

/-- Whether some admissible value lies in `[lb, ub)`. -/
def meets : Domain → Float → Float → Bool
  | finite s, lb, ub => s.meets lb ub
  | real r, lb, ub => r.meets lb ub

/-- Whether a single value is left, up to the precision of a real domain. -/
def isFixed : Domain → Bool
  | finite s => s.isFixed
  | real r => r.isFixed

/-- The value of a fixed domain, the midpoint of a real one. -/
def value? (d : Domain) : Option Float :=
  if d.isFixed then some d.hull.midpoint else none

def summary : Domain → String
  | finite s => s.summary
  | real r => r.interval.text ++ " ε=" ++ Binary64.text r.precision

end Domain

end StatBounds
