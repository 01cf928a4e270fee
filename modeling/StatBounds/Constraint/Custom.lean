import StatBounds.Variables.Atoms

/-!
# User-defined constraints

A constraint may be defined by a plan: the narrowings that it performs for given names and domains of
the variables. It has no other access to them, so whatever it does is recorded and can be undone.
-/

namespace StatBounds

/-- One operation of a user-defined constraint. -/
inductive Act where
  | narrow (v : Var) (onto : Interval)
  | restrict (v : Var) (onto : Domain)
  /-- Keep values by a test that may remember what it was asked about, the last value first. -/
  | sift (v : Var) (keep : List Int → Int → Bool)
  | enforce (a : Atom)
  | refute (a : Atom)
  | truth (a : Atom)
  /-- Look at a variable. -/
  | see (v : Var)
  /-- Count the variables. -/
  | count
  | fail (e : Error)
  /-- Perform an operation, and go on if it fails. -/
  | attempt (act : Act)

/-- What an operation tells. -/
inductive Reply where
  /-- Whether a domain changed. -/
  | changed (flag : Bool)
  | done
  | truth (t : Truth)
  | seen (name : String) (bounds : Interval) (fixed : Bool)
  | counted (size : Nat)
  deriving DecidableEq

namespace Act

/-- Keep values by a test without memory. -/
def retain (v : Var) (keep : Int → Bool) : Act :=
  .sift v fun _ => keep

def run : Act → NarrowM Reply
  | narrow v onto => return .changed (← Variables.narrow v onto)
  | restrict v onto => return .changed (← Variables.restrict v onto)
  | sift v keep => return .changed (← Variables.sift v keep)
  | enforce a => do a.enforce; return .done
  | refute a => do a.refute; return .done
  | truth a => return .truth (a.truth (← Variables.fetch a.var).domain)
  | see v => do
      let x ← Variables.fetch v
      return .seen x.name x.domain.hull x.domain.isFixed
  | count => return .counted (← get).size
  | fail e => throw (.error e)
  | attempt act => fun vars =>
      match act.run vars with
      | .error (.error _) after => .ok .done after
      | result => result

/-- Perform operations until one fails. The replies before a failure are kept. -/
def runAll (acts : List Act) (vars : Variables) :
    List Reply × EStateM.Result Failure Variables Unit :=
  match acts with
  | [] => ([], .ok () vars)
  | act :: rest =>
      match act.run vars with
      | .ok reply vars =>
          let (replies, result) := runAll rest vars
          (reply :: replies, result)
      | .error failure vars => ([], .error failure vars)

end Act

/-- A user-defined constraint. -/
structure Custom where
  label : String
  scope : List Var
  /-- What the constraint does for given variables. -/
  plan : Array Variable → List Act

namespace Custom

def perform (c : Custom) (vars : Variables) : List Reply × EStateM.Result Failure Variables Unit :=
  Act.runAll (c.plan vars.arena) vars

end Custom

end StatBounds
