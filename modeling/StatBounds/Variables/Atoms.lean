import StatBounds.Atom
import StatBounds.Variables.Basic

/-!
# Making atoms true or false

Narrowing a variable so that a test holds or fails. On a finite domain this is exact. On a real one a
half-open bound is relaxed to its closure, as intervals are closed.
-/

namespace StatBounds.Atom

open Binary64 (infinity)

/-- What the variables say about a test. Nothing is known of a variable that is not there. -/
def truthIn (vars : Variables) (a : Atom) : Truth :=
  match vars.get? a.var with
  | some x => a.truth x.domain
  | none => .unknown

/-- The closure of the numbers that pass a test. -/
def closure : Atom → Interval
  | atLeast _ bound => .ofBounds bound infinity
  | below _ bound => .ofBounds (-infinity) bound
  | within _ lb ub => .ofBounds lb ub

/-- The closure of the numbers of an interval that fail a test, if it is an interval. The numbers
    outside `[lb, ub)` are two rays, of which an interval may meet just one. -/
def complementIn? (i : Interval) : Atom → Option Interval
  | atLeast _ bound => some (.ofBounds (-infinity) bound)
  | below _ bound => some (.ofBounds bound infinity)
  | within _ lb ub =>
      if i.lo ≥ lb then some (.ofBounds ub infinity)
      else if i.hi < ub then some (.ofBounds (-infinity) lb)
      else none

def enforce (a : Atom) : NarrowM Unit := do
  match (← Variables.fetch a.var).domain with
  | .finite _ => discard (Variables.retain a.var fun v => a.holds (Binary64.ofInt v))
  | .real _ => discard (Variables.narrow a.var a.closure)

def refute (a : Atom) : NarrowM Unit := do
  match (← Variables.fetch a.var).domain with
  | .finite _ => discard (Variables.retain a.var fun v => !a.holds (Binary64.ofInt v))
  | .real r =>
      match a.complementIn? r.interval with
      | some complement => discard (Variables.narrow a.var complement)
      | none => return ()

end StatBounds.Atom
