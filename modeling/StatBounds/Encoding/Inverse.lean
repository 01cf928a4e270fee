import StatBounds.Encoding.Series

/-!
# Inverse matrices

That a matrix is inverse to another one is posted entry by entry: each entry of the product is 1 on the
diagonal and 0 elsewhere. A singular matrix is no error, its inverse just stays wide.
-/

namespace StatBounds.Store

def checkSquare (what : String) (grid : List (List Var)) (size : Nat) : Except Error Unit :=
  if grid.length ≠ size ∨ grid.any (·.length ≠ size) then
    .error (.matrixShape what size)
  else
    .ok ()

def productEntry (m x : List (List Var)) (i j : Nat) : Expr :=
  let row := m[i]?.getD []
  let column := x.filterMap fun r => r[j]?
  .total (List.zipWith (fun a b => .var a * .var b) row column)

def encodeInverse (m x : List (List Var)) : StoreM Unit := do
  let size := m.length
  if size = 0 then
    throw (.error .emptyMatrix)
  orFail (checkSquare "M" m size)
  orFail (checkSquare "X" x size)
  (m ++ x).forM checkVars
  batch do
    (List.range size).forM fun i =>
      (List.range size).forM fun j =>
        postExpr (productEntry m x i j) (.point (if i = j then 1.0 else 0.0))

def gridName (name : String) (i j : Nat) : String :=
  name ++ "[" ++ toString i ++ "][" ++ toString j ++ "]"

/-- A square grid of new real variables between `-bound` and `bound`. -/
def newGrid (name : String) (size : Nat) (bound precision : Float) : StoreM (List (List Var)) := do
  if size = 0 then
    throw (.error .emptyGrid)
  orFail (checkPrecision precision)
  if bound.isNaN || bound < 0.0 then
    throw (.error (.gridBound bound))
  batch do
    (List.range size).mapM fun i =>
      (List.range size).mapM fun j =>
        newReal (gridName name i j) (-bound) bound precision

end StatBounds.Store
