import StatBounds.Proofs.Propagation.Runs
import StatBounds.Proofs.Store.Reachability
import StatBounds.Proofs.Store.Steps

/-! # Propagation ends at a fixed point

On integer variables every change is recorded, so a constraint that is not in the queue has nothing left
to do: nothing that it looks at has changed since its last invocation, which changed nothing. When the
queue is empty this holds of all constraints.
-/

namespace StatBounds

/-- Every variable ranges over integers. -/
def Variables.Finite (vars : Variables) : Prop :=
  ∀ x ∈ vars.arena, x.domain.isFinite = true

def Variables.FiniteOn (known : Var → Prop) (vars : Variables) : Prop :=
  ∀ v x, known v → vars.get? v = some x → x.domain.isFinite = true

/-- The constraint has nothing left to do. -/
def Constraint.Settled (c : Constraint) (vars : Variables) : Prop :=
  c.propagate vars = .ok () vars

/-! ## What is recorded -/

/-- The variables recorded since an earlier time are of a given kind, and no others have changed. The variables that
    are known to be integers still are. -/
structure Variables.Recorded (known inside : Var → Prop) (before after : Variables) (recorded : List Var) :
    Prop where
  changed : after.changed.toList = before.changed.toList ++ recorded
  within : ∀ v ∈ recorded, inside v
  others : ∀ v, v ∉ recorded → after.get? v = before.get? v
  finite : after.FiniteOn known

namespace Variables

variable {known inside : Var → Prop} {before middle after : Variables} {older newer : List Var} {v : Var}

theorem Finite.on (finite : before.Finite) : before.FiniteOn known :=
  fun _ x _ found => finite x (Array.mem_of_getElem? found)

theorem FiniteOn.domain (finite : before.FiniteOn known) (member : known v) {x : Variable}
    (found : before.get? v = some x) : ∃ s, x.domain = .finite s := by
  have kind := finite v x member found
  cases domain : x.domain with
  | finite s => exact ⟨s, rfl⟩
  | real r => simp [domain, Domain.isFinite] at kind

theorem Recorded.refl (finite : before.FiniteOn known) : Recorded known inside before before [] where
  changed := by simp
  within := by simp
  others _ _ := rfl
  finite := finite

theorem Recorded.trans (first : Recorded known inside before middle older)
    (second : Recorded known inside middle after newer) : Recorded known inside before after (older ++ newer) where
  changed := by rw [second.changed, first.changed, List.append_assoc]
  within v member := (List.mem_append.1 member).elim (first.within v) (second.within v)
  others v missing := by
    rw [List.mem_append, not_or] at missing
    exact (second.others v missing.2).trans (first.others v missing.1)
  finite := second.finite

theorem Recorded.replace (finite : before.FiniteOn known) (member : inside v) (old : Domain) (s : IntSet) :
    Recorded known inside before (((before.save v old).setDomain v (.finite s)).record v) [v] where
  changed := by simp [record, changed_replaced]
  within w recorded := List.mem_singleton.1 recorded ▸ member
  others w other := by
    have apart : v.index ≠ w.index := fun same => other (List.mem_singleton.2 (congrArg Var.mk same.symm))
    simp only [record, get?, arena_replaced, Array.getElem?_modify, if_neg apart]
  finite w x integral found := by
    simp only [record, get?, arena_replaced, Array.getElem?_modify] at found
    split_ifs at found
    · obtain ⟨y, -, rfl⟩ := Option.map_eq_some_iff.1 found
      rfl
    · exact finite w x integral found

end Variables

open Variables (Recorded)

section

variable {known inside : Var → Prop} {α β : Type} {vars : Variables} {v : Var}

/-- The operation changes nothing, and answers alike wherever the variables of a given kind are the same. -/
def Repeats (inside : Var → Prop) (operation : NarrowM α) (vars : Variables) (a : α) : Prop :=
  ∀ others : Variables, (∀ v, inside v → vars.get? v = others.get? v) → operation others = .ok a others

/-- An operation on integer variables records what it changes, and repeats itself if that is nothing. -/
def Records (known inside : Var → Prop) (operation : NarrowM α) : Prop :=
  ∀ vars : Variables, vars.FiniteOn known → Ensures operation vars
    (fun a after => ∃ recorded, Recorded known inside vars after recorded ∧
      (recorded = [] → after = vars ∧ Repeats inside operation vars a))
    fun _ _ => True

theorem records_fetch (member : inside v) : Records known inside (Variables.fetch v) := fun _ finite =>
  ensures_fetch (fun _ found => ⟨[], .refl finite, fun _ => ⟨rfl, fun _ same =>
    fetch_eq ((same v member).symm.trans found)⟩⟩) fun _ => trivial

theorem records_retain (integral : known v) (member : inside v) (keep : Int → Bool) :
    Records known inside (Variables.retain v keep) := by
  intro vars finite
  cases found : vars.get? v with
  | none =>
      rw [Ensures, retain_missing found]
      trivial
  | some x =>
      obtain ⟨s, domain⟩ := finite.domain integral found
      rw [Ensures, retain_eq found domain]
      split_ifs with all none
      · refine ⟨[], .refl finite, fun _ => ⟨rfl, fun others same => ?_⟩⟩
        rw [retain_eq ((same v member).symm.trans found) domain, if_pos all]
      · trivial
      · exact ⟨[v], .replace finite member _ _, by simp⟩

theorem records_narrow (integral : known v) (member : inside v) (onto : Interval) :
    Records known inside (Variables.narrow v onto) := by
  intro vars finite
  cases found : vars.get? v with
  | none =>
      rw [Ensures, narrow_missing found]
      trivial
  | some x =>
      obtain ⟨s, domain⟩ := finite.domain integral found
      rw [Ensures, narrow_eq_finite found domain]
      split_ifs with trims
      · refine (records_retain integral member _ vars finite).mono ?_ fun _ _ _ => trivial
        rintro _ _ ⟨recorded, records, quiet⟩
        refine ⟨recorded, records, fun none => ⟨(quiet none).1, fun others same => ?_⟩⟩
        rw [narrow_eq_finite ((same v member).symm.trans found) domain, if_pos trims]
        exact (quiet none).2 others same
      · refine ⟨[], .refl finite, fun _ => ⟨rfl, fun others same => ?_⟩⟩
        rw [narrow_eq_finite ((same v member).symm.trans found) domain, if_neg trims]

theorem Records.bind {first : NarrowM α} {rest : α → NarrowM β} (head : Records known inside first)
    (tail : ∀ a, Records known inside (rest a)) : Records known inside (first >>= rest) := by
  intro vars finite
  rw [ensures_bind]
  refine (head vars finite).mono (fun a middle ⟨older, first, quietHead⟩ => ?_) fun _ _ _ => trivial
  refine (tail a middle first.finite).mono (fun b after ⟨newer, second, quietTail⟩ =>
    ⟨_, first.trans second, fun none => ?_⟩) fun _ _ _ => trivial
  obtain ⟨rfl, rfl⟩ := List.append_eq_nil_iff.1 none
  obtain ⟨rfl, repeatsHead⟩ := quietHead rfl
  obtain ⟨rfl, repeatsTail⟩ := quietTail rfl
  refine ⟨rfl, fun others same => ?_⟩
  simp only [Bind.bind, EStateM.bind, repeatsHead others same]
  exact repeatsTail others same

theorem Local.records {operation : NarrowM α} (isLocal : Local inside operation) (integral : ∀ v, inside v → known v) :
    Records known inside operation := by
  induction isLocal with
  | pure a => exact fun vars finite => ⟨[], .refl finite, fun _ => ⟨rfl, fun _ _ => rfl⟩⟩
  | fail inRange => exact fun _ _ => trivial
  | bind head tail ihHead ihTail => exact ihHead.bind ihTail
  | read tail same ih =>
      intro vars finite
      refine ensures_bind.2 ((ih vars vars finite).mono (fun a after ⟨recorded, records, quiet⟩ =>
        ⟨recorded, records, fun none => ⟨(quiet none).1, fun others agree => ?_⟩⟩) fun _ _ _ => trivial)
      have rest := (quiet none).2 others agree
      rw [same vars others agree] at rest
      exact rest
  | fetch member => exact records_fetch member
  | retain member keep => exact records_retain (integral _ member) member keep
  | narrow member onto => exact records_narrow (integral _ member) member onto

end

/-! ## Runs -/

section

variable {known inside : Var → Prop} {vars later : Variables} {recorded : List Var} {c : Constraint}

/-- What is recorded of other variables leaves a constraint with nothing to do. -/
theorem Constraint.Settled.kept (settled : c.Settled vars) (builtIn : c.IsBuiltIn) (finite : vars.FiniteOn known)
    (integral : ∀ v ∈ c.scope, known v) (records : Recorded known inside vars later recorded)
    (apart : ∀ v ∈ recorded, v ∉ c.scope) : c.Settled (Propagation.forgetChanges later) := by
  have quiet := (local_scope builtIn).records integral vars finite
  rw [Ensures, settled] at quiet
  obtain ⟨again, same, repeats⟩ := quiet
  refine (repeats (by simpa using same.changed)).2 _ fun v inScope => ?_
  exact (records.others v fun member => apart v member inScope).symm

end

namespace Propagation

def Watched (constraints : Array Constraint) (watchers : Array (List Nat)) : Prop :=
  ∀ (p : Nat) (c : Constraint), constraints[p]? = some c →
    ∀ v ∈ c.scope, ∃ list, watchers[v.index]? = some list ∧ p ∈ list

/-- The variables of the constraints are integers without recorded changes, and no constraint outside of the queue has
    anything left to do. -/
structure Settling (known : Var → Prop) (constraints : Array Constraint) (queue : List Nat) (vars : Variables) :
    Prop where
  finite : vars.FiniteOn known
  clear : vars.changed = #[]
  off : ∀ (p : Nat) (c : Constraint), constraints[p]? = some c → p ∉ queue → c.Settled vars

variable {known : Var → Prop} {constraints : Array Constraint} {watchers : Array (List Nat)} {position : Nat}
  {queue rest woken : List Nat} {vars after : Variables} {c : Constraint}

/-- Whoever looks at a recorded variable is woken, and the others still have nothing to do. -/
theorem Settling.step (settling : Settling known constraints (position :: rest) vars)
    (builtIn : ∀ c ∈ constraints, c.IsBuiltIn) (integral : ∀ c ∈ constraints, ∀ v ∈ c.scope, known v)
    (watched : Watched constraints watchers)
    (invokes : Invokes constraints watchers position rest vars woken c after) :
    Settling known constraints woken (forgetChanges after) := by
  have isBuiltIn {p : Nat} {d : Constraint} (found : constraints[p]? = some d) : d.IsBuiltIn :=
    builtIn d (Array.mem_of_getElem? found)
  have recorded := (Constraint.local_scope (isBuiltIn invokes.found)).records
    (integral c (Array.mem_of_getElem? invokes.found)) vars settling.finite
  rw [Ensures, invokes.ran] at recorded
  obtain ⟨recorded, records, quiet⟩ := recorded
  obtain ⟨older, added⟩ := wake_extends invokes.woke
  have changed : after.changed.toList = recorded := by simpa [settling.clear] using records.changed
  rw [changed] at added
  refine ⟨records.finite, rfl, fun p d found out => ?_⟩
  have apart (v : Var) (member : v ∈ recorded) : v ∉ d.scope := fun inScope => by
    obtain ⟨list, listed, watches⟩ := watched p d found v inScope
    exact out (added v member list listed p watches)
  have before : d.Settled vars := by
    by_cases self : p = position
    · subst self
      obtain rfl : c = d := Option.some.inj (invokes.found.symm.trans found)
      -- It would have been woken if it had recorded anything, as all of that is in its scope.
      have none : recorded = [] := List.eq_nil_iff_forall_not_mem.2 fun v member =>
        apart v member (records.within v member)
      have ran := invokes.ran
      rwa [(quiet none).1] at ran
    · exact settling.off p d found fun queued => (List.mem_cons.1 queued).elim self fun member =>
        out (older.subset member)
  exact before.kept (isBuiltIn found) settling.finite (integral d (Array.mem_of_getElem? found)) records apart

/-- A run over integers that ends with an empty queue leaves no constraint with anything to do. The budget
    was enough for all constraints that were queued at first. -/
theorem run_settled (builtIn : ∀ c ∈ constraints, c.IsBuiltIn) (integral : ∀ c ∈ constraints, ∀ v ∈ c.scope, known v)
    (watched : Watched constraints watchers) (budget steps : Nat) (replies : Array (String × List Reply))
    (settling : Settling known constraints queue vars)
    (ended : (run constraints watchers budget queue steps replies vars).ending = .settled) :
    Settling known constraints [] (run constraints watchers budget queue steps replies vars).vars ∧
      queue.length ≤ budget := by
  have result := run_induction (motive := fun left queue' vars => Settling known constraints queue' vars ∧
      queue.length + left ≤ budget + queue'.length) steps replies
    (fun left position rest vars woken c after ⟨settling, enough⟩ invokes =>
      ⟨settling.step builtIn integral watched invokes, by
        have longer := (wake_extends invokes.woke).1.length_le
        simp only [List.length_cons] at enough
        omega⟩)
    ⟨settling, (Nat.add_comm _ _).le⟩
  simp only [ended] at result
  obtain ⟨left, settling, enough⟩ := result
  exact ⟨settling, (Nat.le_add_right _ left).trans enough⟩

theorem forgetChanges_of_clear (clear : vars.changed = #[]) : forgetChanges vars = vars := by
  cases vars
  cases clear
  rfl

/-- Constraints that have nothing left to do are invoked once each, and that is all. -/
theorem run_of_settled (watchers : Array (List Nat)) (clear : vars.changed = #[])
    (settled : ∀ c ∈ constraints, c.Settled vars)
    (budget steps : Nat) (replies : Array (String × List Reply))
    (queued : ∀ p ∈ queue, p < constraints.size) (enough : queue.length ≤ budget) :
    let result := run constraints watchers budget queue steps replies vars
    result.vars = vars ∧ result.steps = steps + queue.length ∧ result.ending = .settled := by
  induction queue generalizing budget steps replies with
  | nil => cases budget <;> exact ⟨rfl, rfl, rfl⟩
  | cons position rest ih =>
      cases budget with
      | zero => simp at enough
      | succ budget =>
          obtain ⟨c, found⟩ : ∃ c, constraints[position]? = some c :=
            ⟨_, Array.getElem?_eq_getElem (queued position (by simp))⟩
          have nothing : (c.invoke vars).2 = .ok () vars := settled c (Array.mem_of_getElem? found)
          have none : wake constraints.size watchers vars.changed.toList rest = .ok rest := by
            rw [clear]
            rfl
          simp only [run, found, nothing, none, forgetChanges_of_clear clear]
          rw [List.length_cons, Nat.add_comm rest.length 1, ← Nat.add_assoc]
          exact ih budget (steps + 1) _ (fun p member => queued p (by simp [member]))
            (Nat.le_of_succ_le_succ enough)

end Propagation

/-! ## Stores -/

namespace Store

variable {store : Store}

theorem Consistent.watched_scope (consistent : store.Consistent) :
    Propagation.Watched store.constraints store.watchers := by
  intro p c found v inScope
  have known := consistent.scope c (Array.mem_of_getElem? found) v inScope
  have inside : v.index < store.watchers.size := consistent.watched ▸ of_decide_eq_true known
  exact ⟨_, Array.getElem?_eq_getElem inside,
    (consistent.watches v _ (Array.getElem?_eq_getElem inside) p).2 ⟨c, found, inScope⟩⟩

/-- A propagation over integers that ends with an empty queue leaves no constraint with anything to do, and its
    steps were enough to invoke each of them once. -/
theorem Consistent.settling {known : Var → Prop} (consistent : store.Consistent) (finite : store.vars.FiniteOn known)
    (integral : ∀ c ∈ store.constraints, ∀ v ∈ c.scope, known v) (builtIn : ∀ c ∈ store.constraints, c.IsBuiltIn)
    (ended : store.propagation.ending = .settled) :
    Propagation.Settling known store.constraints [] store.propagation.vars ∧
      store.constraints.size ≤ store.config.effectiveMaxSteps := by
  have start : Propagation.Settling known store.constraints (List.range store.constraints.size)
      (Propagation.forgetChanges store.vars) :=
    ⟨finite, rfl, fun p c found out => absurd (List.mem_range.2 (Array.getElem?_eq_some_iff.1 found).1) out⟩
  have ⟨settling, enough⟩ := Propagation.run_settled builtIn integral consistent.watched_scope _ _ _ start ended
  exact ⟨settling, by simpa using enough⟩

/-- If the variables of all constraints are integers, then a propagation that ends with an empty queue leaves none of
    them with anything to do. -/
theorem Consistent.allSettled (consistent : store.Consistent)
    (finite : ∀ c ∈ store.constraints, ∀ v ∈ c.scope, ∀ x, store.vars.get? v = some x → x.domain.isFinite = true)
    (builtIn : ∀ c ∈ store.constraints, c.IsBuiltIn) (ended : store.propagation.ending = .settled) :
    ∀ c ∈ store.constraints, c.Settled store.propagation.vars := by
  intro c member
  let known (v : Var) : Prop := ∃ c ∈ store.constraints, v ∈ c.scope
  have integral : store.vars.FiniteOn known := fun v x ⟨c, listed, inScope⟩ => finite c listed v inScope x
  obtain ⟨settling, -⟩ := consistent.settling integral (fun c listed v inScope => ⟨c, listed, inScope⟩) builtIn ended
  obtain ⟨p, found⟩ := Array.getElem?_of_mem member
  exact settling.off p c found (by simp)

end Store

/-- If a propagation over integers succeeds without using up its steps, then no constraint has anything left
    to do. Another propagation invokes each of them once, and changes nothing. -/
theorem Reachable.propagate_fixed {batches : List Store} {store after : Store}
    (reachable : Reachable batches store) (finite : store.vars.Finite)
    (builtIn : ∀ c ∈ store.constraints, c.IsBuiltIn) (ran : Store.propagate store = .ok () after)
    (uncapped : store.propagation.ending ≠ .capped) :
    (∀ c ∈ store.constraints, c.propagate after.vars = .ok () after.vars) ∧
      Store.propagate after = .ok () after ∧
      after.propagation.ending = .settled ∧
      after.propagation.steps = store.constraints.size := by
  have consistent := reachable.invariant.1
  obtain ⟨ended, rfl⟩ := Store.settled_of_propagate ran uncapped
  obtain ⟨settling, enough⟩ := consistent.settling (finite.on : store.vars.FiniteOn fun _ => True)
    (fun _ _ _ _ => trivial)
    builtIn ended
  have settled (c : Constraint) (member : c ∈ store.constraints) : c.Settled store.propagation.vars := by
    obtain ⟨p, found⟩ := Array.getElem?_of_mem member
    exact settling.off p c found (by simp)
  have again := Propagation.run_of_settled store.watchers settling.clear settled
    store.config.effectiveMaxSteps 0 #[] (fun p => List.mem_range.1) (by simpa using enough)
  have second : store.afterPropagation.propagation =
      Propagation.run store.constraints store.watchers store.config.effectiveMaxSteps
        (List.range store.constraints.size) 0 #[] store.propagation.vars := by
    rw [Store.propagation, Store.afterPropagation, Propagation.forgetChanges_of_clear settling.clear]
  rw [← second] at again
  obtain ⟨kept, counted, endedAgain⟩ := again
  refine ⟨settled, ?_, endedAgain, by simpa using counted⟩
  rw [Store.propagate_eq, Propagation.failure?, endedAgain]
  exact congrArg (EStateM.Result.ok ()) (congrArg (fun vars => { store with vars }) kept)

/-- A truth variable that is the only term of a sum that is one. -/
theorem propagate_fixed_only_term : ∃ store after : Store, Reachable [] store ∧
    Store.propagate store = .ok () after ∧
    (after.vars.get? ⟨0⟩).map Variable.domain = some (.finite (.range 1 1)) ∧
    Store.propagate after = .ok () after ∧ after.propagation.steps = 1 := by
  let fresh : Store := {
    vars := .empty (Config.effectiveRatio {})
    constraints := #[], watchers := #[], config := {}, posted := #[] }
  let one := fresh.extended "x" (.finite (.range 0 1))
  let two := one.extended "y" (.finite (.range 1 1))
  let store := two.posting (.sum { terms := [⟨0⟩], total := ⟨1⟩ })
  have made : Store.ofConfig {} = .ok fresh := rfl
  have first : Store.newBool "x" fresh = .ok ⟨0⟩ one := by
    rw [Store.newBool, Store.addVar_eq]
    simp [fresh, one, Variables.empty, Variables.size]
  have second : Store.newIntRange "y" 1 1 one = .ok ⟨1⟩ two := by
    change Store.addVar "y" (.finite (.range 1 1)) one = _
    rw [Store.addVar_eq]
    simp [fresh, one, two, Store.extended, Variables.empty, Variables.size]
  have posted : Store.postSum [⟨0⟩] ⟨1⟩ two = .ok () store := rfl
  have reachable : Reachable [] store :=
    .succeeded (.succeeded (.succeeded (.new made) (.newBool "x") first) (.newIntRange "y" 1 1) second)
      (.post _) posted
  have ended : store.propagation.ending = .settled := by decide +kernel
  have ran : Store.propagate store = .ok () store.afterPropagation := by
    rw [Store.propagate_eq, Propagation.failure?, ended]
  have finite : store.vars.Finite := by
    unfold Variables.Finite
    decide
  have builtIn : ∀ c ∈ store.constraints, c.IsBuiltIn := by
    simp [store, Store.posting, two, one, fresh, Store.extended, Constraint.IsBuiltIn]
  obtain ⟨-, again, -, steps⟩ :=
    Reachable.propagate_fixed reachable finite builtIn ran (by rw [ended]; simp)
  exact ⟨store, _, reachable, ran, by decide +kernel, again, steps⟩

end StatBounds
