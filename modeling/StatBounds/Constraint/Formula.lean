import StatBounds.Expr.Arena
import StatBounds.Variables.Basic

/-!
# Formulas

The constraint that the value of an expression lies in a target interval. It narrows by evaluating the
expression from the leaves to the root, intersecting the root with the target, and projecting from the
root back to the leaves.
-/

namespace StatBounds

/-- An expression whose value lies in a target interval. -/
structure Formula where
  arena : Array Node
  target : Interval
  scope : List Var
  /-- The text of the expression. -/
  text : String
  deriving DecidableEq

namespace Formula

def ofExpr (e : Expr) (target : Interval) : Formula where
  arena := e.arena
  target := target
  scope := e.vars
  text := e.text

def label (f : Formula) : String :=
  f.text ++ " ∈ " ++ f.target.text

/-- The interval of every node that is left when the root lies in the target, unless nothing is. -/
def revise? (f : Formula) (bounds : Var → Interval) : Option (Array Interval) := do
  let values := evaluateArena bounds f.arena
  let values ← project? values (f.arena.size - 1) f.target
  projectBefore? f.arena f.arena.size values

/-- The variables of the leaves with what is left of them, in the order of the arena. -/
def leaves (f : Formula) (values : Array Interval) : List (Var × Interval) :=
  (f.arena.toList.zip values.toList).filterMap fun (node, value) =>
    match node with
    | .var v => some (v, value)
    | _ => none

def propagate (f : Formula) : NarrowM Unit := do
  Variables.require f.scope
  match f.revise? (← get).bounds with
  | none => throw (.error (.outsideTarget f.text f.target))
  | some values => (f.leaves values).forM fun (v, value) => discard (Variables.narrow v value)

end Formula

end StatBounds
