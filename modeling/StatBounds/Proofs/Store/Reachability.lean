import StatBounds.Proofs.Except
import StatBounds.Proofs.Store.Procedures

/-! # Reachable stores

A store is reached from a new one by procedures and by opening and closing batches. Closing a batch is
described from the store at which it was opened, whose mark the batch keeps.
-/

namespace StatBounds

/-- A store that is reached while some batches are open. These are given by the stores at which they were
    opened, the innermost one first. -/
inductive Reachable : List Store → Store → Prop
  | new {config : Config} {store : Store} (made : Store.ofConfig config = .ok store) : Reachable [] store
  | succeeded {batches : List Store} {store after : Store} {α : Type} {operation : StoreM α} {a : α}
      (reachable : Reachable batches store) (procedure : Procedure operation)
      (ran : operation store = .ok a after) : Reachable batches after
  | failed {batches : List Store} {store after : Store} {α : Type} {operation : StoreM α} {e : Error}
      (reachable : Reachable batches store) (procedure : Procedure operation)
      (ran : operation store = .error (.error e) after) : Reachable batches after
  | opened {batches : List Store} {store : Store} (reachable : Reachable batches store) :
      Reachable (store :: batches) store.openBatch
  | committed {batches : List Store} {outer store : Store} (reachable : Reachable (outer :: batches) store) :
      Reachable batches store.commit
  | rolledBack {batches : List Store} {outer store : Store} (reachable : Reachable (outer :: batches) store) :
      Reachable batches (store.rollback outer.mark)

namespace Store

variable {store after : Store} {batches : List Store}

/-- Each open batch has seen nothing but what can be taken back. -/
def Nested : List Store → Store → Prop
  | [], store => store.vars.depth = 0
  | outer :: batches, store => outer.Consistent ∧ outer.openBatch.Within store ∧ Nested batches outer

theorem Nested.within (nested : Nested batches store) (within : store.Within after) : Nested batches after := by
  cases batches with
  | nil => exact within.depth.trans nested
  | cons outer batches => exact ⟨nested.1, nested.2.1.trans within, nested.2.2⟩

theorem consistent_ofConfig {config : Config} (made : ofConfig config = .ok store) :
    store.Consistent ∧ store.vars.depth = 0 := by
  obtain ⟨_, -, same⟩ := bind_eq_ok.1 made
  obtain rfl := Except.ok.inj same
  refine ⟨⟨rfl, by simp, by simp, by simp, fun name v => ?_, ?_, by simp [Variables.empty], fun _ => rfl⟩, rfl⟩
  · simp [Variables.empty, Variables.get?]
  · simp [Variables.Sound, Variables.empty]

end Store

/-! ## Propagation stays in range -/

namespace Propagation

theorem enqueue_eq_ok {count position : Nat} {queue : List Nat} (inside : position < count)
    (queued : ∀ p ∈ queue, p < count) :
    ∃ after, enqueue count queue position = .ok after ∧ ∀ p ∈ after, p < count := by
  refine ⟨_, if_pos inside, fun p member => ?_⟩
  split_ifs at member with twice
  · exact queued p member
  · rcases List.mem_append.1 member with older | new
    · exact queued p older
    · exact List.mem_singleton.1 new ▸ inside

theorem wake_eq_ok {count : Nat} {watchers : Array (List Nat)} {changed : List Var} {queue : List Nat}
    (posted : ∀ list ∈ watchers, ∀ p ∈ list, p < count) (known : ∀ v ∈ changed, v.index < watchers.size)
    (queued : ∀ p ∈ queue, p < count) :
    ∃ after, wake count watchers changed queue = .ok after ∧ ∀ p ∈ after, p < count := by
  refine foldlM_eq_ok (fun v member queue queued => ?_) queued
  have watched := Array.getElem?_eq_getElem (known v member)
  rw [watched]
  exact foldlM_eq_ok (fun p member _ queued =>
    enqueue_eq_ok (posted _ (Array.mem_of_getElem? watched) p member) queued) queued

/-- If constraints address existing variables only and every watcher list exists, then so does everything
    that a propagation addresses. -/
theorem inRange_run {constraints : Array Constraint} {watchers : Array (List Nat)}
    (builtIn : ∀ c ∈ constraints, c.IsBuiltIn) (posted : ∀ list ∈ watchers, ∀ p ∈ list, p < constraints.size)
    (budget : Nat) (queue : List Nat) (steps : Nat) (replies : Array (String × List Reply)) (vars : Variables)
    (clear : vars.changed = #[]) (watched : watchers.size = vars.size)
    (scope : ∀ c ∈ constraints, ∀ v ∈ c.scope, vars.contains v = true)
    (queued : ∀ p ∈ queue, p < constraints.size) (failure : Failure)
    (fails : (run constraints watchers budget queue steps replies vars).failure? = some failure) :
    failure.InRange := by
  induction budget generalizing queue steps replies vars with
  | zero => cases queue <;> cases fails
  | succ budget ih =>
      cases queue with
      | nil => cases fails
      | cons position queue =>
          rw [run] at fails
          have inside := queued position (by simp)
          obtain ⟨c, found⟩ : ∃ c, constraints[position]? = some c := ⟨_, Array.getElem?_eq_getElem inside⟩
          have member := Array.mem_of_getElem? found
          have invoked := (Constraint.local_scope (builtIn c member)).narrowing.narrowsWithin vars
          simp only [Ensures, Constraint.propagate] at invoked
          rw [found] at fails
          dsimp only at fails
          cases outcome : (c.invoke vars).2 with
          | error failure' after =>
              rw [outcome] at invoked fails
              obtain rfl : failure' = failure := Option.some.inj fails
              exact invoked.2 (scope c member)
          | ok _ after =>
              rw [outcome] at invoked fails
              dsimp only at fails
              obtain ⟨recorded, changed, known⟩ := invoked.changed
              rw [clear] at changed
              have awake (v : Var) (listed : v ∈ after.changed.toList) : v.index < watchers.size := by
                rw [changed] at listed
                rw [watched]
                exact of_decide_eq_true (known v (by simpa using listed))
              have rest (p : Nat) (later : p ∈ queue) : p < constraints.size := queued p (by simp [later])
              obtain ⟨woken, woke, queued'⟩ := wake_eq_ok posted awake rest
              rw [woke] at fails
              have still (d : Constraint) (listed : d ∈ constraints) (v : Var) (inScope : v ∈ d.scope) :
                  (forgetChanges after).contains v = true :=
                (invoked.contains v).trans (scope d listed v inScope)
              exact ih woken _ _ (forgetChanges after) rfl (watched.trans invoked.size.symm) still queued' fails

end Propagation

open Store (Nested)

theorem Reachable.invariant {batches : List Store} {store : Store} (reachable : Reachable batches store) :
    store.Consistent ∧ Nested batches store := by
  induction reachable with
  | new made => exact Store.consistent_ofConfig made
  | succeeded reachable procedure ran ih =>
      have kept := procedure.ensures _ ih.1
      rw [Ensures, ran] at kept
      exact ⟨kept.1, ih.2.within kept.2⟩
  | @failed _ _ _ _ _ e reachable procedure ran ih =>
      have kept := procedure.ensures _ ih.1
      rw [Ensures, ran] at kept
      exact ⟨kept.1, ih.2.within (kept.2 e rfl)⟩
  | opened reachable ih => exact ⟨ih.1.openBatch, ih.1, .refl _, ih.2⟩
  | committed reachable ih =>
      obtain ⟨consistent, before, inner, nested⟩ := ih
      exact ⟨consistent.commit, nested.within (inner.commit before)⟩
  | rolledBack reachable ih =>
      obtain ⟨consistent, before, inner, nested⟩ := ih
      rw [Store.rollback_eq before consistent inner]
      exact ⟨{ before with }, nested.within { Store.Within.refl _ with }⟩

namespace Store

variable {store : Store}

theorem Consistent.lookup (consistent : store.Consistent) {v : Var} {x : Variable}
    (found : store.vars.get? v = some x) : store.lookup? x.name = some v :=
  (consistent.names x.name v).2 ⟨x, found, rfl⟩

/-- A consistent store with no constraint of a user propagates without missing a position. -/
theorem Consistent.inRange_propagate (consistent : store.Consistent)
    (builtIn : ∀ c ∈ store.constraints, c.IsBuiltIn) {failure : Failure} {after : Store}
    (fails : propagate store = .error failure after) : failure.InRange := by
  have posted : ∀ list ∈ store.watchers, ∀ p ∈ list, p < store.constraints.size := by
    intro list member p listed
    obtain ⟨i, found⟩ := Array.getElem?_of_mem member
    obtain ⟨c, here, -⟩ := (consistent.watches ⟨i⟩ list found p).1 listed
    exact (Array.getElem?_eq_some_iff.1 here).1
  rw [propagate] at fails
  cases ended : store.propagation.failure? with
  | none => simp [ended] at fails
  | some failure' =>
      obtain ⟨rfl, -⟩ : failure' = failure ∧ _ := by simpa [ended] using fails
      exact Propagation.inRange_run builtIn posted _ _ _ _ (Propagation.forgetChanges store.vars) rfl
        consistent.watched consistent.scope (fun p => List.mem_range.1) failure' ended

end Store

/-- Whatever was done to a store before, what it keeps is right, outside of all batches the trail is empty,
    names and variables belong to each other, and propagation does not miss a position. -/
theorem Reachable.wellFormed {batches : List Store} {store : Store} (reachable : Reachable batches store) :
    store.Consistent ∧
      (batches = [] → store.vars.trail = []) ∧
      (∀ v x, store.vars.get? v = some x → store.lookup? x.name = some v) ∧
      (∀ v w x y, store.vars.get? v = some x → store.vars.get? w = some y → x.name = y.name → v = w) ∧
      ((∀ c ∈ store.constraints, c.IsBuiltIn) → ∀ failure after,
        Store.propagate store = .error failure after → failure.InRange) := by
  obtain ⟨consistent, nested⟩ := reachable.invariant
  refine ⟨consistent, fun outside => ?_, fun v x => consistent.lookup, fun v w x y first second same => ?_,
    fun builtIn failure after => consistent.inRange_propagate builtIn⟩
  · subst outside
    exact consistent.settled nested
  · have one := consistent.lookup first
    rw [same, consistent.lookup second] at one
    exact (Option.some.inj one).symm

theorem Config.exists_store_of_document {read : String → Option (String → Option Entry)} {document : String}
    {config : Config} (given : ofDocument read document = .ok config) :
    ∃ store, Store.ofConfig config = .ok store ∧ Reachable [] store := by
  have valid : config.validate = .ok () := by
    unfold ofDocument at given
    split at given
    · cases given
    · obtain ⟨_, -, given⟩ := bind_eq_ok.1 given
      obtain ⟨_, -, given⟩ := bind_eq_ok.1 given
      obtain ⟨_, -, given⟩ := bind_eq_ok.1 given
      obtain ⟨_, valid, same⟩ := bind_eq_ok.1 given
      obtain rfl := Except.ok.inj same
      exact valid
  obtain ⟨store, made⟩ : ∃ store, Store.ofConfig config = .ok store := by
    rw [Store.ofConfig, valid]
    exact ⟨_, rfl⟩
  exact ⟨store, made, .new made⟩

theorem Reachable.validated {batches : List Store} {store : Store} (reachable : Reachable batches store) :
    store.config.validate = .ok () := by
  induction reachable with
  | new made =>
      obtain ⟨_, valid, same⟩ := bind_eq_ok.1 made
      obtain rfl := Except.ok.inj same
      exact valid
  | succeeded reachable procedure ran ih =>
      have kept := procedure.ensures _ reachable.invariant.1
      rw [Ensures, ran] at kept
      rw [kept.2.config, ih]
  | @failed _ _ _ _ _ e reachable procedure ran ih =>
      have kept := procedure.ensures _ reachable.invariant.1
      rw [Ensures, ran] at kept
      rw [(kept.2 e rfl).config, ih]
  | opened _ ih => exact ih
  | committed _ ih => exact ih
  | rolledBack _ ih => exact ih

/-- A propagation may take at least one step. -/
theorem Reachable.steps_pos {batches : List Store} {store : Store} (reachable : Reachable batches store) :
    0 < store.config.effectiveMaxSteps := by
  obtain ⟨_, -, rest⟩ := bind_eq_ok.1 reachable.validated
  obtain ⟨_, steps, -⟩ := bind_eq_ok.1 rest
  rw [Config.effectiveMaxSteps]
  match given : store.config.maxSteps with
  | none => exact Nat.zero_lt_succ _
  | some 0 =>
      rw [given] at steps
      cases steps
  | some (steps + 1) => exact Nat.zero_lt_succ _

theorem reachable_newBool : ∃ (fresh : Store) (ratio : Float), Store.ofConfig {} = .ok fresh ∧
    fresh.vars = .empty ratio ∧ fresh.constraints = #[] ∧
    Store.newBool "x" fresh = .ok ⟨0⟩ (fresh.extended "x" (.finite (.range 0 1))) ∧
    Reachable [] (fresh.extended "x" (.finite (.range 0 1))) := by
  obtain ⟨fresh, ratio, made, empty, none⟩ : ∃ fresh ratio, Store.ofConfig {} = .ok fresh ∧
      fresh.vars = .empty ratio ∧ fresh.constraints = #[] := ⟨_, _, rfl, rfl, rfl⟩
  have created : Store.newBool "x" fresh = .ok ⟨0⟩ (fresh.extended "x" (.finite (.range 0 1))) := by
    rw [Store.newBool, Store.addVar_eq, empty]
    simp [Variables.empty, Variables.size]
  exact ⟨fresh, ratio, made, empty, none, created, .succeeded (.new made) (.newBool "x") created⟩

/-- A sum over a truth variable, posted inside a batch. -/
theorem wellFormed_sum_in_batch : ∃ fresh outer store : Store,
    Store.ofConfig {} = .ok fresh ∧ Store.newBool "x" fresh = .ok ⟨0⟩ outer ∧
      Store.postSum [⟨0⟩] ⟨0⟩ outer.openBatch = .ok () store ∧
      store.Consistent ∧ store.lookup? "x" = some ⟨0⟩ ∧
      ∀ failure after, Store.propagate store = .error failure after → failure.InRange := by
  obtain ⟨fresh, ratio, made, empty, none, created, outside⟩ := reachable_newBool
  obtain ⟨store, posted, constraints, found⟩ :
      ∃ store, Store.postSum [⟨0⟩] ⟨0⟩ (fresh.extended "x" (.finite (.range 0 1))).openBatch = .ok () store ∧
        store.constraints = #[.sum { terms := [⟨0⟩], total := ⟨0⟩ }] ∧
        store.vars.get? ⟨0⟩ = some { name := "x", domain := .finite (.range 0 1) } := by
    cases fresh
    subst empty none
    exact ⟨_, rfl, rfl, rfl⟩
  have inside : Reachable [fresh.extended "x" (.finite (.range 0 1))] store :=
    .succeeded (.opened outside) (.post _) posted
  obtain ⟨consistent, -, lookup, -, inRange⟩ := Reachable.wellFormed inside
  exact ⟨fresh, _, store, made, created, posted, consistent, lookup _ _ found,
    inRange (by simp [constraints, Constraint.IsBuiltIn])⟩

/-! ## Stores of ranges -/

namespace Store

variable {store : Store}

/-- A new store without settings. -/
def fresh : Store where
  vars := .empty (Config.effectiveRatio {})
  constraints := #[]
  watchers := #[]
  config := {}
  posted := #[]

theorem reachable_fresh : Reachable [] fresh :=
  .new (show ofConfig {} = .ok fresh from rfl)

theorem reachable_extended_real {batches : List Store} (reachable : Reachable batches store) {name : String}
    {lo hi precision : Float} (precise : checkPrecision precision = .ok ()) (numberLo : Binary64.IsNumber lo)
    (numberHi : Binary64.IsNumber hi) (ordered : ¬ hi < lo) (free : store.vars.names.contains name = false) :
    Reachable batches (store.extended name (.real { interval := .ofBounds lo hi, precision })) := by
  refine .succeeded reachable (.newReal name lo hi precision) (a := ⟨store.vars.size⟩) ?_
  rw [newReal_eq precise numberLo numberHi ordered, addVar_eq, if_neg (by simp [free])]

/-- The store with more variables, each over a range of integers. -/
def ranging (store : Store) : List (String × Int × Int) → Store
  | [] => store
  | (name, lo, hi) :: entries => (store.extended name (.finite (.range lo hi))).ranging entries

theorem names_contains_extended {name other : String} {domain : Domain} :
    (store.extended name domain).vars.names.contains other = (name == other || store.vars.names.contains other) := by
  simp [extended]

theorem contains_ranging {entries : List (String × Int × Int)} {name : String} :
    (store.ranging entries).vars.names.contains name =
      (store.vars.names.contains name || entries.any fun entry => entry.1 == name) := by
  induction entries generalizing store with
  | nil => simp [ranging]
  | cons entry entries ih =>
      rw [ranging, ih, names_contains_extended, List.any_cons, ← Bool.or_assoc, Bool.or_comm (entry.1 == name)]

theorem reachable_ranging {batches : List Store} {entries : List (String × Int × Int)}
    (reachable : Reachable batches store) (ordered : ∀ entry ∈ entries, entry.2.1 ≤ entry.2.2)
    (distinct : (entries.map Prod.fst).Nodup) (free : ∀ entry ∈ entries, store.vars.names.contains entry.1 = false) :
    Reachable batches (store.ranging entries) := by
  induction entries generalizing store with
  | nil => exact reachable
  | cons entry entries ih =>
      obtain ⟨name, lo, hi⟩ := entry
      obtain ⟨order, ordered⟩ := List.forall_mem_cons.1 ordered
      obtain ⟨unused, free⟩ := List.forall_mem_cons.1 free
      obtain ⟨other, distinct⟩ := List.nodup_cons.1 distinct
      have created : newIntRange name lo hi store =
          .ok ⟨store.vars.size⟩ (store.extended name (.finite (.range lo hi))) := by
        rw [newIntRange, if_neg (not_lt.2 order)]
        exact (addVar_eq _ _).trans (if_neg (by simp [unused]))
      refine ih (.succeeded reachable (.newIntRange name lo hi) created) ordered distinct fun entry member => ?_
      have apart : name ≠ entry.1 := fun same => other (List.mem_map.2 ⟨entry, member, same.symm⟩)
      simp [extended, apart, free entry member]

theorem contains_ranging_fresh {entries : List (String × Int × Int)} {name : String} :
    (fresh.ranging entries).vars.names.contains name = entries.any fun entry => entry.1 == name := by
  rw [contains_ranging]
  simp [fresh, Variables.empty]

end Store

end StatBounds
