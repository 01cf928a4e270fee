import StatBounds.Interval.Arithmetic
import StatBounds.Variables.Basic

/-!
# Sums

The constraint that some variables add up to another one. It narrows the total to the sum of the
terms, and each term to what the total leaves beside the other terms.
-/

namespace StatBounds

/-- Variables that add up to a total. -/
structure Sum where
  terms : List Var
  total : Var
  deriving DecidableEq

namespace Sum

def label (c : Sum) : String :=
  "sum of " ++ toString c.terms.length ++ " terms = " ++ c.total.text

/-- The terms, then the total. -/
def scope (c : Sum) : List Var :=
  c.terms ++ [c.total]

/-- Narrow the total, then each term. The terms are read before anything is narrowed; the total is read
    again after its own narrowing. -/
def propagate (c : Sum) : NarrowM Unit := do
  Variables.require c.scope
  let parts := c.terms.map (← get).bounds
  discard (Variables.narrow c.total (Interval.sum parts))
  let target := (← get).bounds c.total
  (c.terms.zip (Interval.sumsOfOthers parts)).forM fun (term, others) =>
    discard (Variables.narrow term (target - others))

end Sum

end StatBounds
