/-!
# Variables as positions

A variable is addressed by its position among the variables of its store, counted from zero in the
order of their creation.
-/

namespace StatBounds

/-- The address of a variable in a store. -/
structure Var where
  index : Nat
  deriving Repr, DecidableEq, Hashable

namespace Var

/-- The letter `v` and the position. -/
def text (v : Var) : String :=
  "v" ++ toString v.index

end Var

end StatBounds
