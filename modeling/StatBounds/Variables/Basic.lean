import Std.Data.ExtHashMap
import StatBounds.Domain.Basic
import StatBounds.Error
import StatBounds.Var

/-!
# The variables of a store

Named domains in the order of their creation. Every narrowing goes through this module: it records
which variables have changed enough to be looked at again, and inside a batch it keeps the domain as it
was, so that the batch can be undone. A narrowing that fails keeps what it has done so far.
-/

namespace StatBounds

/-- Names are looked up by equality. -/
instance equivBEqName : EquivBEq String := inferInstance

/-- Equal names have the same hash. -/
instance lawfulHashableName : LawfulHashable String := inferInstance

/-- A named domain. -/
structure Variable where
  name : String
  domain : Domain
  deriving DecidableEq

/-- The variables of a store. -/
structure Variables where
  /-- The variables, by position. -/
  arena : Array Variable
  /-- The position of each name in use. -/
  names : Std.ExtHashMap String Var
  /-- The part of its width that a real variable has to lose for the loss to be recorded. -/
  ratio : Float
  /-- The variables recorded as changed, in order and with repetitions. -/
  changed : Array Var
  /-- The domains replaced inside the open batches, the latest one first. -/
  trail : List (Var × Domain)
  /-- The number of open batches. -/
  depth : Nat

/-- An operation on variables, which may fail and then leaves the variables as far as it came. -/
abbrev NarrowM := EStateM Failure Variables

namespace Variables

def empty (ratio : Float) : Variables where
  arena := #[]
  names := ∅
  ratio := ratio
  changed := #[]
  trail := []
  depth := 0

def size (vars : Variables) : Nat :=
  vars.arena.size

def contains (vars : Variables) (v : Var) : Bool :=
  v.index < vars.size

def get? (vars : Variables) (v : Var) : Option Variable :=
  vars.arena[v.index]?

/-- The interval that holds the domain at a position. Nothing is known of a variable that is not
    there. -/
def bounds (vars : Variables) (v : Var) : Interval :=
  match vars.get? v with
  | some x => x.domain.hull
  | none => .entire

def setDomain (vars : Variables) (v : Var) (domain : Domain) : Variables :=
  { vars with arena := vars.arena.modify v.index fun x => { x with domain } }

/-- Keep the domain at a position for the open batches, if there are any. -/
def save (vars : Variables) (v : Var) (domain : Domain) : Variables :=
  if vars.depth > 0 then { vars with trail := (v, domain) :: vars.trail } else vars

def record (vars : Variables) (v : Var) : Variables :=
  { vars with changed := vars.changed.push v }

/-- Append a variable under a name that is not in use. -/
def create (name : String) (domain : Domain) : NarrowM Var := do
  let vars ← get
  if vars.names.contains name then
    throw (.error (.nameInUse name))
  let v : Var := ⟨vars.size⟩
  set { vars with
    arena := vars.arena.push { name, domain }
    names := vars.names.insert name v }
  return v

def fetch (v : Var) : NarrowM Variable := do
  let vars ← get
  match vars.get? v with
  | some x => return x
  | none => throw (.fault (.outOfRange v.index vars.size))

def require (vs : List Var) : NarrowM Unit :=
  vs.forM fun v => discard (fetch v)

/-- Keep the values of a finite domain that pass a test, and tell whether any was refused. The test may remember what
    it was asked about, and it is asked twice: until it first refuses a value, and if it does, about all values once
    more. A refusal is recorded as a change even if all values pass the second time. A domain that loses its last
    value stays empty. -/
def sift (v : Var) (keep : List Int → Int → Bool) : NarrowM Bool := do
  let x ← fetch v
  match x.domain with
  | .real _ => throw (.error (.realFiltered x.name))
  | .finite s =>
      match IntSet.askedUntilRefusal keep [] s.values with
      | none => return false
      | some asked =>
          let kept := s.sift keep asked
          modify fun vars => (vars.save v x.domain).setDomain v (.finite kept)
          if kept.isEmpty then
            throw (.error (.emptied x.name))
          modify (·.record v)
          return true

/-- Keep the values of a finite domain that pass a test without memory. -/
def retain (v : Var) (keep : Int → Bool) : NarrowM Bool :=
  sift v fun _ => keep

/-- Whether a real variable that shrinks from `old` to `new` has to be looked at again: an unbounded
    one if it gains a finite bound, another one if it is wider than its precision and loses more than
    the ratio of its width. -/
def significant (ratio precision : Float) (old new : Interval) : Bool :=
  if old.width.isInf then
    new.unboundedSides < old.unboundedSides
  else
    old.width > precision && old.width - new.width > ratio * old.width

/-- Intersect the domain of a variable with an interval, and tell whether it changed. A finite domain
    is left alone if its extremes lie in the interval. A real domain that would become empty stays as
    it is. -/
def narrow (v : Var) (onto : Interval) : NarrowM Bool := do
  let x ← fetch v
  match x.domain with
  | .finite s =>
      let inside := onto.inward
      let trimsLow := s.min?.any fun n => Binary64.ofInt n < inside.lo
      let trimsHigh := s.max?.any fun n => Binary64.ofInt n > inside.hi
      if trimsLow || trimsHigh then
        retain v fun n => Binary64.ofInt n ≥ inside.lo && Binary64.ofInt n ≤ inside.hi
      else
        return false
  | .real r =>
      let new := r.interval.intersect onto
      if new.sameBounds r.interval then
        return false
      if new.isEmpty then
        throw (.error (.emptied x.name))
      modify fun vars => (vars.save v x.domain).setDomain v (.real { r with interval := new })
      modify fun vars =>
        if significant vars.ratio r.precision r.interval new then vars.record v else vars
      return true

/-- Intersect the domain of a variable with another domain: value by value if both are finite, and
    by the other's bounds otherwise. -/
def restrict (v : Var) (onto : Domain) : NarrowM Bool := do
  let x ← fetch v
  match x.domain, onto with
  | .finite _, .finite allowed => retain v allowed.contains
  | _, _ => narrow v onto.hull

end Variables

end StatBounds
