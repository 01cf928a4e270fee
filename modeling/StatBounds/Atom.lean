import StatBounds.Domain.Basic
import StatBounds.Var

/-!
# Atoms

Tests on one variable, and what a domain says about them. On a finite domain the values decide; on a
real one the bounds do.
-/

namespace StatBounds

/-- A test on one variable. -/
inductive Atom where
  /-- The variable is `bound` or more. -/
  | atLeast (v : Var) (bound : Float)
  /-- The variable is less than `bound`. -/
  | below (v : Var) (bound : Float)
  /-- The variable lies in `[lb, ub)`. -/
  | within (v : Var) (lb ub : Float)
  deriving DecidableEq

/-- What is known about a test. -/
inductive Truth where
  | yes
  | no
  | unknown
  deriving Repr, DecidableEq

namespace Atom

def var : Atom → Var
  | atLeast v _ | below v _ | within v _ _ => v

def holds : Atom → Float → Bool
  | atLeast _ bound, x => x ≥ bound
  | below _ bound, x => x < bound
  | within _ lb ub, x => lb ≤ x && x < ub

/-- Whether every number of a real domain passes the test. -/
def entailed (r : RealDomain) : Atom → Bool
  | atLeast _ bound => r.interval.lo ≥ bound
  | below _ bound => r.interval.hi < bound
  | within _ lb ub => r.interval.lo ≥ lb && r.interval.hi < ub

/-- Whether no number of a real domain passes the test. -/
def refuted (r : RealDomain) : Atom → Bool
  | atLeast _ bound => r.interval.hi < bound
  | below _ bound => r.interval.lo ≥ bound
  | within _ lb ub => !r.meets lb ub

/-- What a domain says about the test. A finite domain without values passes it, as nothing fails. -/
def truth (a : Atom) : Domain → Truth
  | .finite s =>
      if s.values.all fun n => a.holds (Binary64.ofInt n) then .yes
      else if s.values.any fun n => a.holds (Binary64.ofInt n) then .unknown
      else .no
  | .real r =>
      if a.refuted r then .no
      else if a.entailed r then .yes
      else .unknown

end Atom

end StatBounds
