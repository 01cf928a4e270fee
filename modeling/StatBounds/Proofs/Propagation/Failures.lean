import StatBounds.Proofs.Propagation.Narrowing
import StatBounds.Proofs.Propagation.Runs
import StatBounds.Proofs.Store.Narrowing
import StatBounds.Proofs.Store.Steps

/-! # Why constraints fail

A built-in constraint never makes a malformed call: if it reports an error, then it says that there is no
solution. All but the bin counts fail for no other reason, as long as their variables exist.
-/

namespace StatBounds

variable {α β : Type}

/-- An operation fails with failures of a given kind only. -/
def FailsWith (allowed : Failure → Prop) (operation : NarrowM α) : Prop :=
  ∀ vars, Ensures operation vars (fun _ _ => True) fun failure _ => allowed failure

/-- The errors that an operation reports say that there is no solution. -/
abbrev FailsInfeasibly (operation : NarrowM α) : Prop :=
  FailsWith (fun failure => ∀ e, failure = .error e → e.kind = .infeasible) operation

/-- The failure says that there is no solution, or that a position does not exist. -/
def Failure.Plain : Failure → Prop
  | .error e => e.kind = .infeasible
  | .fault f => f ≠ .overflow

theorem Failure.plain_outOfRange {index size : Nat} : (Failure.fault (.outOfRange index size)).Plain := by
  simp [Plain]

theorem Failure.reported_or_overflow {failure : Failure} (inRange : failure.InRange) :
    failure.Reported ∨ failure = .fault .overflow := by
  cases failure with
  | error e => exact .inl trivial
  | fault fault =>
      cases fault with
      | overflow => exact .inr rfl
      | outOfRange index size => exact absurd rfl (inRange index size)

theorem Failure.reported_of_plain {failure : Failure} (plain : failure.Plain) (inRange : failure.InRange) :
    failure.Reported := by
  refine (reported_or_overflow inRange).resolve_right fun overflow => ?_
  subst overflow
  exact plain rfl

/-- If all positions exist, then a plain failure says that there is no solution. -/
theorem Failure.Plain.infeasible {failure : Failure} (plain : failure.Plain) (inRange : failure.InRange) :
    failure.Infeasible := by
  cases failure with
  | error e => exact plain
  | fault fault =>
      cases fault with
      | overflow => exact absurd rfl plain
      | outOfRange index size => exact absurd rfl (inRange index size)

theorem length_of_mapM_eq_ok {step : α → NarrowM β} {as : List α} {vars after : Variables} {bs : List β}
    (ran : as.mapM step vars = .ok bs after) : bs.length = as.length := by
  induction as generalizing vars bs with
  | nil =>
      cases ran
      rfl
  | cons a as ih =>
      rw [List.mapM_cons] at ran
      simp only [Bind.bind, EStateM.bind] at ran
      cases first : step a vars with
      | error failure middle => simp [first] at ran
      | ok b middle =>
          rw [first] at ran
          cases rest : as.mapM step middle with
          | error failure last => simp [rest] at ran
          | ok bs last =>
              simp only [rest] at ran
              cases ran
              simp [ih rest]

theorem exists_of_mapM_eq_ok {step : α → NarrowM β} {as : List α} {vars after : Variables} {bs : List β}
    (ran : as.mapM step vars = .ok bs after) : ∀ b ∈ bs, ∃ a before middle, step a before = .ok b middle := by
  induction as generalizing vars bs with
  | nil =>
      cases ran
      simp
  | cons a as ih =>
      rw [List.mapM_cons] at ran
      simp only [Bind.bind, EStateM.bind] at ran
      cases first : step a vars with
      | error failure middle => simp [first] at ran
      | ok b middle =>
          rw [first] at ran
          cases rest : as.mapM step middle with
          | error failure last => simp [rest] at ran
          | ok bs last =>
              simp only [rest] at ran
              cases ran
              exact List.forall_mem_cons.2 ⟨⟨a, vars, middle, first⟩, ih rest⟩

namespace FailsWith

variable {allowed : Failure → Prop}

theorem mono {allowed' : Failure → Prop} {operation : NarrowM α} (fails : FailsWith allowed operation)
    (more : ∀ failure, allowed failure → allowed' failure) : FailsWith allowed' operation :=
  fun vars => (fails vars).mono (fun _ _ => id) fun failure _ => more failure

/-- Whoever fails plainly reports no error but that there is no solution. -/
theorem infeasibly {operation : NarrowM α} (fails : FailsWith Failure.Plain operation) : FailsInfeasibly operation :=
  fails.mono fun _ plain _ same => (same ▸ plain : Failure.Plain (.error _))

theorem pure (a : α) : FailsWith allowed (pure a : NarrowM α) :=
  fun _ => trivial

theorem fail {failure : Failure} (expected : allowed failure) : FailsWith allowed (throw failure : NarrowM α) :=
  fun _ => expected

/-- The rest has to be judged for possible results only. -/
theorem bind_result {first : NarrowM α} {rest : α → NarrowM β} (head : FailsWith allowed first)
    (tail : ∀ a vars after, first vars = .ok a after → FailsWith allowed (rest a)) :
    FailsWith allowed (first >>= rest) := by
  intro vars
  have outcome := head vars
  rw [ensures_bind]
  unfold Ensures at outcome ⊢
  cases ran : first vars with
  | error failure after =>
      rw [ran] at outcome
      exact outcome
  | ok a after => exact tail a vars after ran after

theorem bind {first : NarrowM α} {rest : α → NarrowM β} (head : FailsWith allowed first)
    (tail : ∀ a, FailsWith allowed (rest a)) : FailsWith allowed (first >>= rest) :=
  head.bind_result fun a _ _ _ => tail a

theorem get {next : Variables → NarrowM α} (tail : ∀ vars, FailsWith allowed (next vars)) :
    FailsWith allowed (get >>= next) :=
  fun vars => tail vars vars

theorem discard {operation : NarrowM α} (fails : FailsWith allowed operation) :
    FailsWith allowed (discard operation) :=
  fun vars => ensures_discard.2 (fails vars)

theorem forM {step : α → NarrowM PUnit} {as : List α} (each : ∀ a ∈ as, FailsWith allowed (step a)) :
    FailsWith allowed (as.forM step) := by
  induction as with
  | nil => exact pure _
  | cons a as ih => exact (each a (by simp)).bind fun _ => ih fun a member => each a (by simp [member])

theorem mapM {step : α → NarrowM β} {as : List α} (each : ∀ a ∈ as, FailsWith allowed (step a)) :
    FailsWith allowed (as.mapM step) := by
  induction as with
  | nil => exact pure _
  | cons a as ih =>
      rw [List.mapM_cons]
      exact (each a (by simp)).bind fun _ => (ih fun a member => each a (by simp [member])).bind fun _ => pure _

end FailsWith

/-- The operation fails if there is no solution or a position does not exist, and for no other reason. -/
abbrev FailsPlainly (operation : NarrowM α) : Prop :=
  FailsWith Failure.Plain operation

namespace FailsPlainly

/-! ## Single steps -/

/-- A step is judged for the variable that it addresses, if it is there. -/
theorem of_found {v : Var} {rest : Variable → NarrowM α}
    (each : ∀ vars x, vars.get? v = some x → Ensures (rest x) vars (fun _ _ => True) fun failure _ => failure.Plain) :
    FailsPlainly (Variables.fetch v >>= rest) := by
  intro vars
  cases found : vars.get? v with
  | none =>
      rw [Ensures, fetch_bind_missing found]
      exact Failure.plain_outOfRange
  | some x =>
      rw [Ensures, fetch_bind found]
      exact each vars x found

theorem fetch (v : Var) : FailsPlainly (Variables.fetch v) := by
  intro vars
  cases found : vars.get? v with
  | none =>
      rw [Ensures, fetch_missing found]
      exact Failure.plain_outOfRange
  | some x =>
      rw [Ensures, fetch_eq found]
      trivial

theorem require (vs : List Var) : FailsPlainly (Variables.require vs) :=
  .forM fun v _ => (fetch v).discard

theorem retain_finite {vars : Variables} {v : Var} {x : Variable} {s : IntSet} (keep : Int → Bool)
    (found : vars.get? v = some x) (domain : x.domain = .finite s) :
    Ensures (Variables.retain v keep) vars (fun _ _ => True) fun failure _ => failure.Plain := by
  rw [Ensures, retain_eq found domain]
  split_ifs
  · trivial
  · exact rfl
  · trivial

theorem narrow (v : Var) (onto : Interval) : FailsPlainly (Variables.narrow v onto) := by
  intro vars
  cases found : vars.get? v with
  | none =>
      rw [Ensures, narrow_missing found]
      exact Failure.plain_outOfRange
  | some x =>
      cases domain : x.domain with
      | finite s =>
          rw [Ensures, narrow_eq_finite found domain]
          split_ifs
          · exact retain_finite _ found domain
          · trivial
      | real r =>
          rw [Ensures, narrow_eq_real found domain]
          dsimp only
          split_ifs
          · trivial
          · exact rfl
          · trivial
          · trivial

theorem restrict (v : Var) (onto : Domain) : FailsPlainly (Variables.restrict v onto) := by
  refine of_found fun vars x found => ?_
  split
  · next domain => exact retain_finite _ found domain
  · exact narrow v _ vars

theorem enforce (a : Atom) : FailsPlainly a.enforce := by
  refine of_found fun vars x found => ?_
  split
  · next domain => exact ensures_discard.2 (retain_finite _ found domain)
  · exact (narrow _ _).discard vars

theorem refute (a : Atom) : FailsPlainly a.refute := by
  refine of_found fun vars x found => ?_
  split
  · next domain => exact ensures_discard.2 (retain_finite _ found domain)
  · split
    · exact (narrow _ _).discard vars
    · trivial

/-! ## Constraints -/

theorem sum (c : Sum) : FailsPlainly c.propagate :=
  (require _).bind fun _ => .get fun _ => (narrow _ _).discard.bind fun _ => .get fun _ =>
    .forM fun _ _ => (narrow _ _).discard

theorem reified (c : Reified) : FailsPlainly c.propagate := by
  refine (require _).bind fun _ => .get fun vars => ?_
  dsimp only
  split_ifs
  · exact (narrow _ _).discard
  · exact (narrow _ _).discard
  · exact .forM fun a _ => enforce a
  · split
    · exact refute _
    · exact .pure _
  · exact .pure _

theorem formula (f : Formula) : FailsPlainly f.propagate := by
  refine (require _).bind fun _ => .get fun vars => ?_
  split
  · exact .fail rfl
  · exact .forM fun _ _ => (narrow _ _).discard

/-- With a count for each bin, the filter has a range for each bin. -/
theorem binCount {c : BinCount} (lengths : c.counts.length = c.filter.bins.length) :
    FailsInfeasibly c.propagate := by
  have filtered : FailsInfeasibly c.filtered := by
    refine (FailsWith.mapM fun v _ => (fetch v).infeasibly.bind fun _ => .pure _).bind fun domains => ?_
    refine (FailsWith.mapM fun v _ => (fetch v).infeasibly.bind fun x => ?_).bind_result fun ranges vars after ran => ?_
    · split
      · exact .pure _
      · exact .fail fun e same => Failure.error.inj same ▸ rfl
    · have sameLength := length_of_mapM_eq_ok ran
      split
      · exact .pure _
      · next failure fails =>
          intro vars e same
          have expected := BinCountFilter.failsAsExpected_filter (sameLength.trans lengths) failure fails
          rw [same] at expected
          exact expected
  exact filtered.bind fun out => (FailsWith.forM fun _ _ => (restrict _ _).infeasibly.discard).bind fun _ =>
    .forM fun _ _ => (narrow _ _).infeasibly.discard

end FailsPlainly

/-! ## Runs -/

section

variable {constraints : Array Constraint} {watchers : Array (List Nat)} {queue : List Nat} {vars : Variables}

theorem Propagation.run_failsWith {allowed : Failure → Prop} (each : ∀ c ∈ constraints, FailsWith allowed c.propagate)
    (outOfRange : ∀ index size, allowed (.fault (.outOfRange index size))) (budget steps : Nat)
    (replies : Array (String × List Reply)) {position : Nat} {failure : Failure}
    (failed : (run constraints watchers budget queue steps replies vars).ending = .failed position failure) :
    allowed failure := by
  have ended := @run_invariant constraints (fun _ => True) vars watchers budget queue steps replies
    (fun _ _ _ _ _ _ _ _ => trivial) trivial
  simp only [failed] at ended
  obtain ⟨rest, before, -, breaks⟩ := ended
  cases breaks with
  | missing _ => exact outOfRange _ _
  | unwatched found ran woke =>
      obtain ⟨index, size, rfl⟩ := outOfRange_of_wake woke
      exact outOfRange index size
  | @failed c failure after found ran =>
      have allows := each c (Array.mem_of_getElem? found) before
      rwa [Ensures, ran] at allows

/-- An error that ends a run says that there is no solution. -/
theorem Propagation.run_failsInfeasibly (each : ∀ c ∈ constraints, FailsInfeasibly c.propagate) (budget steps : Nat)
    (replies : Array (String × List Reply)) {position : Nat} {e : Error}
    (failed : (run constraints watchers budget queue steps replies vars).ending = .failed position (.error e)) :
    e.kind = .infeasible :=
  run_failsWith each (fun _ _ _ => by simp) budget steps replies failed e rfl

end

end StatBounds
