import StatBounds.Variables.Atoms

/-!
# Reified conjunctions

The constraint that a truth variable is 1 exactly if all of some tests hold. Known tests fix the
variable; the variable set to 1 enforces all tests; set to 0 it refutes the last open one.
-/

namespace StatBounds

/-- A truth variable that tells whether all of some tests hold. -/
structure Reified where
  indicator : Var
  atoms : List Atom
  deriving DecidableEq

namespace Reified

def label (c : Reified) : String :=
  c.indicator.text ++ " <=> conjunction of " ++ toString c.atoms.length ++ " atoms"

/-- The tested variables, then the truth variable. -/
def scope (c : Reified) : List Var :=
  c.atoms.map Atom.var ++ [c.indicator]

/-- Narrow the truth variable if the tests decide it, and the tested variables if it decides them. -/
def propagate (c : Reified) : NarrowM Unit := do
  Variables.require c.scope
  let vars ← get
  if c.atoms.any fun a => a.truthIn vars == .no then
    discard (Variables.narrow c.indicator (.point 0.0))
  else if c.atoms.all fun a => a.truthIn vars == .yes then
    discard (Variables.narrow c.indicator (.point 1.0))
  else
    let indicator := vars.bounds c.indicator
    if indicator.lo ≥ 1.0 then
      c.atoms.forM Atom.enforce
    else if indicator.hi ≤ 0.0 then
      match c.atoms.filter fun a => a.truthIn vars == .unknown with
      | [last] => last.refute
      | _ => return ()

end Reified

end StatBounds
