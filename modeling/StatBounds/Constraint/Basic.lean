import StatBounds.Constraint.BinCount
import StatBounds.Constraint.Custom
import StatBounds.Constraint.Formula
import StatBounds.Constraint.Reified
import StatBounds.Constraint.Sum

/-!
# Constraints

The kinds of constraints that a store can hold, and what all of them have in common: a label, the
variables in whose changes they are interested, and a propagation that narrows variables.
-/

namespace StatBounds

/-- A constraint on the variables of a store. -/
inductive Constraint where
  | formula (c : Formula)
  | sum (c : Sum)
  | reified (c : Reified)
  | binCount (c : BinCount)
  | custom (c : Custom)

namespace Constraint

def label : Constraint → String
  | formula c => c.label
  | sum c => c.label
  | reified c => c.label
  | binCount c => c.label
  | custom c => c.label

/-- The variables whose changes call for another invocation, possibly with repetitions. -/
def scope : Constraint → List Var
  | formula c => c.scope
  | sum c => c.scope
  | reified c => c.scope
  | binCount c => c.scope
  | custom c => c.scope

/-- Invoke the constraint once. A user-defined one also tells the replies of its operations. -/
def invoke (c : Constraint) (vars : Variables) :
    Option (List Reply) × EStateM.Result Failure Variables Unit :=
  match c with
  | formula c => (none, c.propagate vars)
  | sum c => (none, c.propagate vars)
  | reified c => (none, c.propagate vars)
  | binCount c => (none, c.propagate vars)
  | custom c =>
      let (replies, result) := c.perform vars
      (some replies, result)

def propagate (c : Constraint) : NarrowM Unit :=
  fun vars => (c.invoke vars).2

end Constraint

end StatBounds
