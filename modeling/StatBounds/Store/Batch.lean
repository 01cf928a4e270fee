import StatBounds.Store.Propagation

/-!
# Batches

A batch runs operations as one: if they end in an error, every variable and constraint that they
created is removed and every domain that they narrowed is restored. Batches may be nested.
-/

namespace StatBounds

/-- How much there was when a batch began. -/
structure Mark where
  vars : Nat
  constraints : Nat
  trail : Nat
  deriving Repr, DecidableEq

namespace Variables

/-- Put back a saved domain, unless its variable is to be removed anyway. -/
def restore (count : Nat) (vars : Variables) (saved : Var × Domain) : Variables :=
  if saved.1.index < count then vars.setDomain saved.1 saved.2 else vars

/-- Take back the newest saved domains, down to a length of the trail, and remove the variables from a
    count on with their names. -/
def rollback (vars : Variables) (count trail : Nat) : Variables :=
  let newest := vars.trail.take (vars.trail.length - trail)
  let restored := newest.foldl (restore count) vars
  let removed := restored.arena.toList.drop count
  { restored with
    arena := restored.arena.take count
    names := removed.foldl (fun names x => names.erase x.name) restored.names
    trail := vars.trail.drop (vars.trail.length - trail)
    changed := #[] }

end Variables

namespace Store

/-- How much there is now. -/
def mark (store : Store) : Mark where
  vars := store.vars.size
  constraints := store.constraints.size
  trail := store.vars.trail.length

/-- Open a batch: from now on replaced domains are kept. -/
def openBatch (store : Store) : Store :=
  { store with vars := { store.vars with depth := store.vars.depth + 1 } }

/-- Close a batch that succeeded. The outermost one forgets what was kept. -/
def commit (store : Store) : Store :=
  let depth := store.vars.depth - 1
  { store with vars := { store.vars with
      depth, trail := if depth = 0 then [] else store.vars.trail } }

/-- Close a batch that failed, and go back to a mark. -/
def rollback (store : Store) (mark : Mark) : Store :=
  let vars := { store.vars with depth := store.vars.depth - 1 }
  { store with
    vars := vars.rollback mark.vars mark.trail
    constraints := store.constraints.take mark.constraints
    watchers := (store.watchers.take mark.vars).map fun list => list.filter (· < mark.constraints) }

/-- Close a batch in the way that its operations ended, given the mark of its beginning. A broken rule
    is no error of the batch, which then stays open. -/
def closeBatch (mark : Mark) (store : Store) : Option Failure → Store
  | none => store.commit
  | some (.error _) => store.rollback mark
  | some (.fault _) => store

def batch {α : Type} (operation : StoreM α) : StoreM α := fun store =>
  match operation store.openBatch with
  | .ok a after => .ok a (after.closeBatch store.mark none)
  | .error failure after => .error failure (after.closeBatch store.mark (some failure))

end Store

end StatBounds
