import StatBounds.Bin
import StatBounds.Store.Batch

/-!
# Series and bin membership

A series is a list of variables whose values are sorted into bins. Its kind says which variables it
takes and by which tests the membership in a bin is expressed.
-/

namespace StatBounds

/-- The kinds of series. -/
inductive SeriesKind where
  /-- Integer variables, tested by two one-sided inequalities. -/
  | discrete
  /-- Any variables, tested by one interval. -/
  | continuous
  deriving Repr, DecidableEq

namespace SeriesKind

def name : SeriesKind → String
  | discrete => "discrete"
  | continuous => "continuous"

def accepts : SeriesKind → Domain → Bool
  | discrete, domain => domain.isFinite
  | continuous, _ => true

/-- Tests that all hold iff a variable lies in a bin. -/
def membership (kind : SeriesKind) (v : Var) (bin : Bin) : List Atom :=
  match kind with
  | discrete => [.atLeast v bin.lb, .below v bin.ub]
  | continuous => [.within v bin.lb bin.ub]

end SeriesKind

namespace Store

def checkSeries (task : String) (kind : SeriesKind) (series : List Var) : StoreM Unit :=
  series.forM fun v => do
    checkVar v
    let x ← onVars (Variables.fetch v)
    if !kind.accepts x.domain then
      throw (.error (.seriesKind task x.name kind.name))

/-- A new truth variable that tells whether all of some tests hold. -/
def newIndicator (name : String) (atoms : List Atom) : StoreM Var := do
  let v ← newBool name
  postReified v atoms
  return v

def sumOf (vs : List Var) : Expr :=
  .total (vs.map .var)

end Store

end StatBounds
