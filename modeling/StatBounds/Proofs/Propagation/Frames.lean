import StatBounds.Proofs.Propagation.Failures
import StatBounds.Proofs.Propagation.Formulas
import StatBounds.Proofs.Store.Reachability

/-! # Variables that nothing looks at

An operation that addresses variables of a given kind does the same whatever the others are. So nothing has to be
known of the others for an assignment to be kept: they can be thought of as variables that take the choices for them.
-/

namespace StatBounds

/-- A domain that a choice is a value of. -/
def Choice.domain : Choice → Domain
  | .int n => .finite ⟨[n.toInt], List.pairwise_singleton _ _⟩
  | .real _ => .real { interval := .entire, precision := 1.0 }

theorem Choice.admits_domain (c : Choice) : c.domain.Admits c := by
  cases c with
  | int n => exact List.mem_singleton_self _
  | real r => exact Interval.encloses_entire _

namespace Variables

variable {inside : Var → Prop} {σ : Assignment} {vars : Variables} {v : Var}

open Classical in
/-- A variable with another domain if it is not of a given kind, such that the choice there is a value. -/
noncomputable def free (inside : Var → Prop) (σ : Assignment) (v : Var) (x : Variable) : Variable :=
  if inside v then x else { x with domain := (σ v).domain }

theorem free_inside (member : inside v) (x : Variable) : free inside σ v x = x :=
  if_pos member

/-- The variables with other domains wherever they are not of a given kind. -/
noncomputable def freed (inside : Var → Prop) (σ : Assignment) (vars : Variables) : Variables :=
  { vars with arena := vars.arena.mapIdx fun i => free inside σ ⟨i⟩ }

theorem get?_freed (v : Var) : (vars.freed inside σ).get? v = (vars.get? v).map (free inside σ v) :=
  Array.getElem?_mapIdx

theorem get?_freed_inside (member : inside v) : (vars.freed inside σ).get? v = vars.get? v := by
  have same : free inside σ v = id := funext (free_inside member)
  rw [get?_freed, same, Option.map_id_fun, id]

theorem size_freed : (vars.freed inside σ).size = vars.size :=
  Array.size_mapIdx

theorem admits_freed_iff : (vars.freed inside σ).Admits σ ↔ vars.AdmitsOn inside σ := by
  constructor
  · intro admits v x member found
    exact admits v x ((get?_freed_inside member).trans found)
  · intro admits v x found
    rw [get?_freed] at found
    obtain ⟨y, there, rfl⟩ := Option.map_eq_some_iff.1 found
    unfold free
    split_ifs with member
    · exact admits v y member there
    · exact (σ v).admits_domain

theorem freed_replaced (member : inside v) (old d : Domain) :
    ((vars.save v old).setDomain v d).freed inside σ = ((vars.freed inside σ).save v old).setDomain v d := by
  have arena : (vars.arena.modify v.index fun x => { x with domain := d }).mapIdx (fun i => free inside σ ⟨i⟩) =
      (vars.arena.mapIdx fun i => free inside σ ⟨i⟩).modify v.index fun x => { x with domain := d } := by
    refine Array.ext_getElem? fun i => ?_
    simp only [Array.getElem?_mapIdx, Array.getElem?_modify]
    by_cases here : v.index = i
    · subst here
      have same : free inside σ ⟨v.index⟩ = id := funext (free_inside member)
      simp [same]
    · simp [here]
  unfold save
  by_cases deep : vars.depth > 0
  · rw [if_pos deep, if_pos (show (vars.freed inside σ).depth > 0 from deep)]
    simp only [freed, setDomain, arena]
  · rw [if_neg deep, if_neg (show ¬ (vars.freed inside σ).depth > 0 from deep)]
    simp only [freed, setDomain, arena]

theorem freed_recorded (member : inside v) (old d : Domain) :
    (((vars.save v old).setDomain v d).record v).freed inside σ =
      (((vars.freed inside σ).save v old).setDomain v d).record v :=
  congrArg (·.record v) (freed_replaced member old d)

end Variables

open Variables (freed get?_freed_inside size_freed freed_replaced freed_recorded)

section

variable {inside : Var → Prop} {σ : Assignment} {α β : Type} {vars : Variables} {v : Var}

def Commutes (inside : Var → Prop) (σ : Assignment) (operation : NarrowM α) (vars : Variables) : Prop :=
  Ensures operation vars (fun a after => operation (vars.freed inside σ) = .ok a (after.freed inside σ))
    fun failure after => operation (vars.freed inside σ) = .error failure (after.freed inside σ)

theorem commutes_retain (member : inside v) (keep : Int → Bool) : Commutes inside σ (Variables.retain v keep) vars := by
  have same : (vars.freed inside σ).get? v = vars.get? v := get?_freed_inside member
  cases found : vars.get? v with
  | none =>
      rw [Commutes, Ensures, retain_missing found, retain_missing (same.trans found), size_freed]
  | some x =>
      rw [found] at same
      cases domain : x.domain with
      | real r =>
          rw [Commutes, Ensures, retain_real found domain, retain_real same domain]
      | finite s =>
          rw [Commutes, Ensures, retain_eq found domain, retain_eq same domain]
          split_ifs
          · rfl
          · exact congrArg _ (freed_replaced member _ _).symm
          · exact congrArg _ (freed_recorded member _ _).symm

theorem commutes_narrow (member : inside v) (onto : Interval) : Commutes inside σ (Variables.narrow v onto) vars := by
  have same : (vars.freed inside σ).get? v = vars.get? v := get?_freed_inside member
  cases found : vars.get? v with
  | none =>
      rw [Commutes, Ensures, narrow_missing found, narrow_missing (same.trans found), size_freed]
  | some x =>
      rw [found] at same
      cases domain : x.domain with
      | finite s =>
          rw [Commutes, Ensures, narrow_eq_finite found domain, narrow_eq_finite same domain]
          split_ifs
          · exact commutes_retain member _
          · rfl
      | real r =>
          have ratio : (((vars.freed inside σ).save v x.domain).setDomain v
              (.real { r with interval := r.interval.intersect onto })).ratio =
              ((vars.save v x.domain).setDomain v (.real { r with interval := r.interval.intersect onto })).ratio := by
            rw [← freed_replaced member]
            rfl
          rw [Commutes, Ensures, narrow_eq_real found domain, narrow_eq_real same domain]
          dsimp only
          rw [ratio]
          split_ifs
          · rfl
          · rfl
          · exact congrArg _ (freed_recorded member _ _).symm
          · exact congrArg _ (freed_replaced member _ _).symm

/-- Local operations do not depend on the variables that they do not address. -/
theorem Local.commutes {operation : NarrowM α} (isLocal : Local inside operation) (vars : Variables) :
    Commutes inside σ operation vars := by
  induction isLocal generalizing vars with
  | pure a => exact rfl
  | fail _ => exact rfl
  | bind head tail ihHead ihTail =>
      refine ensures_bind.2 ((ihHead vars).mono (fun a middle first => ?_) fun failure middle fails => ?_)
      · refine (ihTail a middle).mono (fun b after second => ?_) fun failure after fails => ?_
        · simp only [Bind.bind, EStateM.bind, first, second]
        · simp only [Bind.bind, EStateM.bind, first, fails]
      · simp only [Bind.bind, EStateM.bind, fails]
  | @read _ next tail same ih =>
      have agree : next vars = next (vars.freed inside σ) := same _ _ fun v member => (get?_freed_inside member).symm
      refine (ih vars vars).mono (fun a after first => ?_) fun failure after fails => ?_
      · rw [agree] at first
        exact first
      · rw [agree] at fails
        exact fails
  | @fetch v member =>
      have same : (vars.freed inside σ).get? v = vars.get? v := get?_freed_inside member
      cases found : vars.get? v with
      | none =>
          rw [Commutes, Ensures, fetch_missing found, fetch_missing (same.trans found), size_freed]
      | some x =>
          rw [Commutes, Ensures, fetch_eq found]
          exact fetch_eq (same.trans found)
  | retain member keep => exact commutes_retain member keep
  | narrow member onto => exact commutes_narrow member onto

theorem Local.mono {known : Var → Prop} {operation : NarrowM α} (isLocal : Local inside operation)
    (more : ∀ v, inside v → known v) : Local known operation := by
  induction isLocal with
  | pure a => exact .pure a
  | fail inRange => exact .fail inRange
  | bind head tail ihHead ihTail => exact ihHead.bind ihTail
  | read tail same ih =>
      exact .read ih fun vars others agree => same vars others fun v member => agree v (more v member)
  | fetch member => exact .fetch (more _ member)
  | retain member keep => exact .retain (more _ member) keep
  | narrow member onto => exact .narrow (more _ member) onto

theorem Keeps.on {operation : NarrowM α} {result : α → Prop} (keeps : Keeps σ operation result)
    (isLocal : Local inside operation) (admits : vars.AdmitsOn inside σ) :
    Ensures operation vars (fun a after => after.AdmitsOn inside σ ∧ result a)
      fun failure after => after.AdmitsOn inside σ ∧ ¬ failure.Infeasible := by
  have kept := keeps (vars.freed inside σ) (Variables.admits_freed_iff.2 admits)
  have commutes := isLocal.commutes vars (σ := σ)
  unfold Commutes at commutes
  unfold Ensures at kept commutes ⊢
  cases outcome : operation vars with
  | ok a after =>
      rw [outcome] at commutes
      rw [commutes] at kept
      exact ⟨Variables.admits_freed_iff.1 kept.1, kept.2⟩
  | error failure after =>
      rw [outcome] at commutes
      rw [commutes] at kept
      exact ⟨Variables.admits_freed_iff.1 kept.1, kept.2⟩

end

/-! ## Runs -/

section

variable {inside : Var → Prop} {σ : Assignment}

/-- A run of local constraints that keep an assignment keeps it on the variables that they address, and does not claim
    that there is no solution. -/
theorem Propagation.run_keepsOn {constraints : Array Constraint} {watchers : Array (List Nat)}
    (each : ∀ c ∈ constraints, Keeps σ c.propagate fun _ => True)
    (isLocal : ∀ c ∈ constraints, Local inside c.propagate) (budget : Nat) (queue : List Nat) (steps : Nat)
    (replies : Array (String × List Reply)) {vars : Variables} (admits : vars.AdmitsOn inside σ) :
    let result := run constraints watchers budget queue steps replies vars
    result.vars.AdmitsOn inside σ ∧ ∀ failure, result.failure? = some failure → ¬ failure.Infeasible := by
  have kept (c : Constraint) (member : c ∈ constraints) (before : Variables) (admits : before.AdmitsOn inside σ) :=
    ((each c member).on (isLocal c member) admits).mono (fun _ _ both => both.1) fun _ _ fails => fails
  exact run_ensures kept (fun _ => id) (fun _ _ => id) watchers budget queue steps replies admits

namespace Store

variable {store : Store}

/-- A constraint looks at the variable. -/
def Concerns (store : Store) (v : Var) : Prop :=
  ∃ c ∈ store.constraints, v ∈ c.scope

theorem constraints_propagated (times : Nat) : (store.propagated times).constraints = store.constraints := by
  induction times with
  | zero => rfl
  | succ times ih =>
      rw [propagated_succ]
      exact ih

theorem Consistent.propagated_times (consistent : store.Consistent) (times : Nat) :
    (store.propagated times).Consistent := by
  induction times with
  | zero => exact consistent
  | succ times ih =>
      rw [propagated_succ]
      exact ih.propagated

/-- Propagation renames no variable. -/
theorem names_propagated (times : Nat) :
    (store.propagated times).vars.arena.toList.map Variable.name = store.vars.arena.toList.map Variable.name := by
  induction times with
  | zero => rfl
  | succ times ih =>
      have narrowed : Variables.Narrowed (Propagation.forgetChanges (store.propagated times).vars)
          (store.propagated times).afterPropagation.vars := Propagation.narrowed_run _ _ _ _ _ _ _ rfl
      rw [propagated_succ, narrowed.names_toList]
      exact ih

/-- Any number of propagations of built-in constraints keeps an assignment that the constraints keep, on any variables
    that include those which a constraint looks at. It never claims that there is no solution. -/
theorem propagated_keepsOn (builtIn : ∀ c ∈ store.constraints, c.IsBuiltIn)
    (each : ∀ c ∈ store.constraints, Keeps σ c.propagate fun _ => True) (more : ∀ v, store.Concerns v → inside v)
    (admits : store.vars.AdmitsOn inside σ) (times : Nat) :
    (store.propagated times).vars.AdmitsOn inside σ ∧
      ∀ failure, (store.propagated times).propagation.failure? = some failure → ¬ failure.Infeasible := by
  have isLocal (c : Constraint) (member : c ∈ store.constraints) : Local inside c.propagate :=
    (Constraint.local_scope (builtIn c member)).mono fun v inScope => more v ⟨c, member, inScope⟩
  have once {before : Store} (same : before.constraints = store.constraints) (admits : before.vars.AdmitsOn inside σ) :
      before.propagation.vars.AdmitsOn inside σ ∧
        ∀ failure, before.propagation.failure? = some failure → ¬ failure.Infeasible := by
    have start : (Propagation.forgetChanges before.vars).AdmitsOn inside σ := admits
    exact Propagation.run_keepsOn (same ▸ each) (same ▸ isLocal) _ _ _ _ start
  have kept : (store.propagated times).vars.AdmitsOn inside σ := by
    induction times with
    | zero => exact admits
    | succ times ih =>
        rw [propagated_succ]
        exact (once (constraints_propagated times) ih).1
  exact ⟨kept, (once (constraints_propagated times) kept).2⟩

/-- Constraints that fail plainly make a propagation fail only for want of solutions. -/
theorem Consistent.infeasible_of_propagate (consistent : store.Consistent)
    (builtIn : ∀ c ∈ store.constraints, c.IsBuiltIn) (plain : ∀ c ∈ store.constraints, FailsPlainly c.propagate)
    {failure : Failure} {after : Store} (fails : propagate store = .error failure after) :
    failure.Infeasible := by
  obtain ⟨position, ended, -⟩ := failed_of_propagate fails
  have reason : failure.Plain := Propagation.run_failsWith plain (fun _ _ => by simp [Failure.Plain]) _ _ _ ended
  exact reason.infeasible (consistent.inRange_propagate builtIn fails)

/-- Constraints that keep an assignment and fail plainly do not fail at all where the assignment is admitted. -/
theorem Consistent.exists_propagate (consistent : store.Consistent) (builtIn : ∀ c ∈ store.constraints, c.IsBuiltIn)
    (each : ∀ c ∈ store.constraints, Keeps σ c.propagate fun _ => True)
    (plain : ∀ c ∈ store.constraints, FailsPlainly c.propagate) (admits : store.vars.AdmitsOn store.Concerns σ) :
    ∃ after, propagate store = .ok () after := by
  have feasible := (propagated_keepsOn builtIn each (fun _ => id) admits 0).2
  cases ran : propagate store with
  | ok _ after => exact ⟨after, rfl⟩
  | error failure after =>
      exact absurd (consistent.infeasible_of_propagate builtIn plain ran) (feasible failure (failure?_of_propagate ran))

end Store

end

end StatBounds
