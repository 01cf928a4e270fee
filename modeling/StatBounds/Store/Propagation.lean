import StatBounds.Store.Basic

/-!
# Propagation

Constraints are invoked one after another from a queue, until the queue is empty, a constraint fails or
a number of steps is reached. An invocation that changes a variable puts the constraints that watch it
back into the queue, at its end and at most once.
-/

namespace StatBounds

/-- How a propagation ended. -/
inductive Ending where
  /-- No constraint was left in the queue. -/
  | settled
  /-- The number of steps was reached while constraints were left. -/
  | capped
  /-- The constraint at a position failed. -/
  | failed (position : Nat) (failure : Failure)
  deriving DecidableEq

/-- The result of a propagation. -/
structure Propagation where
  vars : Variables
  /-- The number of invocations that succeeded. -/
  steps : Nat
  ending : Ending
  /-- The labels and replies of the user-defined constraints that were invoked, in order. -/
  replies : Array (String × List Reply)

namespace Propagation

/-- Put a constraint, one of `count`, at the end of the queue unless it is in the queue already. -/
def enqueue (count : Nat) (queue : List Nat) (position : Nat) : Except Fault (List Nat) :=
  if position < count then
    .ok (if position ∈ queue then queue else queue ++ [position])
  else
    .error (.outOfRange position count)

def wake (count : Nat) (watchers : Array (List Nat)) (changed : List Var) (queue : List Nat) :
    Except Fault (List Nat) :=
  changed.foldlM (fun queue v =>
    match watchers[v.index]? with
    | some positions => positions.foldlM (enqueue count) queue
    | none => .error (.outOfRange v.index watchers.size)) queue

def forgetChanges (vars : Variables) : Variables :=
  { vars with changed := #[] }

/-- The replies to report for an invocation. Those of one that breaks a rule are not reported. -/
def reported (c : Constraint) (replies : Option (List Reply)) :
    EStateM.Result Failure Variables Unit → Option (String × List Reply)
  | .error (.fault _) _ => none
  | _ => replies.map (c.label, ·)

/-- Invoke constraints from a queue, at most `budget` of them. -/
def run (constraints : Array Constraint) (watchers : Array (List Nat)) :
    (budget : Nat) → (queue : List Nat) → (steps : Nat) → Array (String × List Reply) →
    Variables → Propagation
  | _, [], steps, replies, vars => { vars, steps, ending := .settled, replies }
  | 0, _ :: _, steps, replies, vars => { vars, steps, ending := .capped, replies }
  | budget + 1, position :: queue, steps, replies, vars =>
      match constraints[position]? with
      | none =>
          let fault := Fault.outOfRange position constraints.size
          { vars, steps, ending := .failed position (.fault fault), replies }
      | some c =>
          let (told, result) := c.invoke vars
          let replies := match reported c told result with
            | some entry => replies.push entry
            | none => replies
          match result with
          | .error failure vars => { vars, steps, ending := .failed position failure, replies }
          | .ok _ vars =>
              match wake constraints.size watchers vars.changed.toList queue with
              | .error fault => { vars, steps, ending := .failed position (.fault fault), replies }
              | .ok queue =>
                  run constraints watchers budget queue (steps + 1) replies (forgetChanges vars)

/-- Why a propagation failed, if it did. -/
def failure? (p : Propagation) : Option Failure :=
  match p.ending with
  | .failed _ failure => some failure
  | _ => none

end Propagation

namespace Store

/-- Run every constraint of a store, and again whatever changes call for. -/
def propagation (store : Store) : Propagation :=
  Propagation.run store.constraints store.watchers store.config.effectiveMaxSteps
    (List.range store.constraints.size) 0 #[] (Propagation.forgetChanges store.vars)

/-- Propagate, and fail as the constraint that failed. What was narrowed before stays narrowed. -/
def propagate : StoreM Unit := fun store =>
  let result := store.propagation
  match result.failure? with
  | some failure => .error failure { store with vars := result.vars }
  | none => .ok () { store with vars := result.vars }

end Store

end StatBounds
