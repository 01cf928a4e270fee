import StatBounds.Config.Basic
import StatBounds.Constraint.Basic

/-!
# Stores

A store owns the variables and the constraints of one problem. For each variable it keeps the list of
the constraints that watch it, in the order of posting.
-/

namespace StatBounds

/-- The variables and constraints of one problem. -/
structure Store where
  vars : Variables
  /-- The constraints, in the order of posting. -/
  constraints : Array Constraint
  /-- For each variable the positions of the constraints with the variable in their scope. -/
  watchers : Array (List Nat)
  config : Config
  /-- The labels of all constraints that have ever been accepted, also of those taken back. -/
  posted : Array String

/-- An operation on a store, which may fail and then leaves the store as far as it came. -/
abbrev StoreM := EStateM Failure Store

/-- Let a check without effects fail inside an operation. -/
def orFail {m : Type → Type} {α : Type} [Monad m] [MonadExceptOf Failure m] :
    Except Error α → m α
  | .ok a => pure a
  | .error e => throw (.error e)

namespace Store

/-- A store without variables and constraints, for valid settings. -/
def ofConfig (config : Config) : Except Error Store := do
  config.validate
  return {
    vars := .empty config.effectiveRatio
    constraints := #[]
    watchers := #[]
    config
    posted := #[] }

def onVars {α : Type} (operation : NarrowM α) : StoreM α := fun store =>
  match operation store.vars with
  | .ok a vars => .ok a { store with vars }
  | .error failure vars => .error failure { store with vars }

def checkVar (v : Var) : StoreM Unit := do
  let store ← get
  if !store.vars.contains v then
    throw (.error (.unknownVariable v store.vars.size))

/-- Check that every position of a list is one of a variable. -/
def checkVars (vs : List Var) : StoreM Unit :=
  vs.forM checkVar

/-- Append a variable that nothing watches yet. -/
def addVar (name : String) (domain : Domain) : StoreM Var := do
  let v ← onVars (Variables.create name domain)
  modify fun store => { store with watchers := store.watchers.push [] }
  return v

/-- A new integer variable over the listed values, of which there has to be one. -/
def newInt (name : String) (values : List Int) : StoreM Var := do
  let values := IntSet.ofList values
  if values.isEmpty then
    throw (.error (.emptyValues name))
  addVar name (.finite values)

def newIntRange (name : String) (lo hi : Int) : StoreM Var := do
  if lo > hi then
    throw (.error (.reversedRange name lo hi))
  addVar name (.finite (.range lo hi))

def newBool (name : String) : StoreM Var :=
  addVar name (.finite (.range 0 1))

def newReal (name : String) (lo hi precision : Float) : StoreM Var := do
  orFail (checkPrecision precision)
  if lo.isNaN || hi.isNaN || lo > hi then
    throw (.error (.invalidBounds name lo hi))
  addVar name (.real { interval := .ofBounds lo hi, precision })

/-- A new real variable that has one value, with the default precision. -/
def newConstant (name : String) (value : Float) : StoreM Var := do
  newReal name value value (← get).config.effectiveDefaultPrecision

def lookup? (store : Store) (name : String) : Option Var :=
  store.vars.names[name]?

def narrow (v : Var) (onto : Interval) : StoreM Bool := do
  checkVar v
  onVars (Variables.narrow v onto)

def watch (watchers : Array (List Nat)) (position : Nat) (scope : List Var) : Array (List Nat) :=
  scope.eraseDups.foldl (fun watchers v => watchers.modify v.index (· ++ [position])) watchers

/-- Post a constraint, all of whose variables have to exist. -/
def post (c : Constraint) : StoreM Unit := do
  checkVars c.scope
  modify fun store => { store with
    watchers := watch store.watchers store.constraints.size c.scope
    constraints := store.constraints.push c
    posted := store.posted.push c.label }

/-- Post that the value of an expression lies in a target, which must not be empty. -/
def postExpr (e : Expr) (target : Interval) : StoreM Unit := do
  if target.isEmpty then
    throw (.error (.emptyTarget e.text))
  post (.formula (.ofExpr e target))

/-- Post that two expressions are equal: their difference is zero. -/
def postRelation (lhs rhs : Expr) : StoreM Unit :=
  postExpr (lhs - rhs) (.point 0.0)

def postSum (terms : List Var) (total : Var) : StoreM Unit :=
  post (.sum { terms, total })

/-- Whether a domain holds no values but 0 and 1. -/
def isBoolean : Domain → Bool
  | .finite s => s.values.all fun v => v == 0 || v == 1
  | .real _ => false

/-- Post that a truth variable tells whether all of some tests, at least one, hold. -/
def postReified (indicator : Var) (atoms : List Atom) : StoreM Unit := do
  checkVar indicator
  let x ← onVars (Variables.fetch indicator)
  if !isBoolean x.domain then
    throw (.error (.notBoolean x.name))
  if atoms.isEmpty then
    throw (.error .emptyConjunction)
  post (.reified { indicator, atoms })

def fixedCount (store : Store) : Nat :=
  (store.vars.arena.toList.filter fun x => x.domain.isFixed).length

def summary (store : Store) : String :=
  "vars=" ++ toString store.vars.size ++ ", fixed=" ++ toString store.fixedCount
    ++ ", constraints=" ++ toString store.constraints.size

end Store

end StatBounds
