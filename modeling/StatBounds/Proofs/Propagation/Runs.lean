import Mathlib.Data.List.Forall2
import StatBounds.Proofs.Ensures
import StatBounds.Proofs.Except
import StatBounds.Store.Propagation

/-! # Runs of a propagation

A run invokes the first constraint of the queue again and again. What every such step keeps holds whenever
the run ends, in whichever of the three ways that may be.
-/

namespace StatBounds

namespace Propagation

/-! ## The queue -/

theorem enqueue_extends {count position : Nat} {queue after : List Nat}
    (enqueued : enqueue count queue position = .ok after) : queue <+: after ∧ position ∈ after := by
  unfold enqueue at enqueued
  split_ifs at enqueued with inside queued
  · obtain rfl := Except.ok.inj enqueued
    exact ⟨List.prefix_rfl, queued⟩
  · obtain rfl := Except.ok.inj enqueued
    exact ⟨List.prefix_append _ _, by simp⟩

theorem enqueueAll_extends {count : Nat} {positions queue after : List Nat}
    (enqueued : positions.foldlM (enqueue count) queue = .ok after) :
    queue <+: after ∧ ∀ p ∈ positions, p ∈ after := by
  induction positions generalizing queue with
  | nil =>
      obtain rfl := Except.ok.inj enqueued
      exact ⟨List.prefix_rfl, by simp⟩
  | cons position positions ih =>
      obtain ⟨middle, first, rest⟩ := bind_eq_ok.1 enqueued
      have ⟨older, added⟩ := enqueue_extends first
      have ⟨newer, others⟩ := ih rest
      exact ⟨older.trans newer, List.forall_mem_cons.2 ⟨newer.subset added, others⟩⟩

/-- Waking keeps the queue and puts every constraint that watches a changed variable into it. -/
theorem wake_extends {count : Nat} {watchers : Array (List Nat)} {changed : List Var} {queue after : List Nat}
    (woke : wake count watchers changed queue = .ok after) :
    queue <+: after ∧ ∀ v ∈ changed, ∀ list, watchers[v.index]? = some list → ∀ p ∈ list, p ∈ after := by
  induction changed generalizing queue with
  | nil =>
      obtain rfl := Except.ok.inj woke
      exact ⟨List.prefix_rfl, by simp⟩
  | cons w changed ih =>
      obtain ⟨middle, first, rest⟩ := bind_eq_ok.1 woke
      have ⟨newer, others⟩ := ih rest
      dsimp only at first
      cases found : watchers[w.index]? with
      | none => simp [found] at first
      | some positions =>
          rw [found] at first
          have ⟨older, added⟩ := enqueueAll_extends first
          refine ⟨older.trans newer, List.forall_mem_cons.2 ⟨fun list same p member => ?_, others⟩⟩
          obtain rfl := Option.some.inj (found.symm.trans same)
          exact newer.subset (added p member)

/-- Waking fails only at positions that do not exist. -/
theorem outOfRange_of_wake {count : Nat} {watchers : Array (List Nat)} {changed : List Var} {queue : List Nat}
    {fault : Fault} (fails : wake count watchers changed queue = .error fault) :
    ∃ index size, fault = .outOfRange index size := by
  let isOutOfRange (fault : Fault) : Prop := ∃ index size, fault = .outOfRange index size
  refine foldlM_eq_error (p := isOutOfRange) (fun queue v _ fault fails => ?_) fails
  split at fails
  · refine foldlM_eq_error (p := isOutOfRange) (fun queue position _ fault fails => ?_) fails
    rw [enqueue] at fails
    split_ifs at fails
    exact ⟨_, _, (Except.error.inj fails).symm⟩
  · exact ⟨_, _, (Except.error.inj fails).symm⟩

/-! ## Steps -/

/-- The constraint at a position succeeds, and `woken` is the rest of the queue together with what its
    changes call for. -/
structure Invokes (constraints : Array Constraint) (watchers : Array (List Nat)) (position : Nat)
    (rest : List Nat) (vars : Variables) (woken : List Nat) (c : Constraint) (after : Variables) : Prop where
  found : constraints[position]? = some c
  ran : c.propagate vars = .ok () after
  woke : wake constraints.size watchers after.changed.toList rest = .ok woken

/-- The constraint at a position cannot be invoked, fails, or wakes what does not exist. -/
inductive Breaks (constraints : Array Constraint) (watchers : Array (List Nat)) (position : Nat)
    (rest : List Nat) (vars : Variables) : Failure → Variables → Prop
  | missing (none : constraints[position]? = none) :
      Breaks constraints watchers position rest vars (.fault (.outOfRange position constraints.size)) vars
  | failed {c : Constraint} {failure : Failure} {after : Variables}
      (found : constraints[position]? = some c) (ran : c.propagate vars = .error failure after) :
      Breaks constraints watchers position rest vars failure after
  | unwatched {c : Constraint} {fault : Fault} {after : Variables}
      (found : constraints[position]? = some c) (ran : c.propagate vars = .ok () after)
      (woke : wake constraints.size watchers after.changed.toList rest = .error fault) :
      Breaks constraints watchers position rest vars (.fault fault) after

/-- What every successful step keeps holds at the end of a run. A run ends with an empty queue, with a queue
    and no budget, or with a step that goes wrong. -/
theorem run_induction {constraints : Array Constraint} {watchers : Array (List Nat)}
    {motive : Nat → List Nat → Variables → Prop} {budget : Nat} {queue : List Nat} {vars : Variables}
    (steps : Nat) (replies : Array (String × List Reply))
    (step : ∀ budget position rest vars woken c after, motive (budget + 1) (position :: rest) vars →
      Invokes constraints watchers position rest vars woken c after →
      motive budget woken (forgetChanges after))
    (start : motive budget queue vars) :
    let result := run constraints watchers budget queue steps replies vars
    match result.ending with
    | .settled => ∃ left, motive left [] result.vars
    | .capped => ∃ position rest, motive 0 (position :: rest) result.vars
    | .failed position failure => ∃ left rest before, motive (left + 1) (position :: rest) before ∧
        Breaks constraints watchers position rest before failure result.vars := by
  induction budget generalizing queue steps replies vars with
  | zero =>
      cases queue with
      | nil => exact ⟨0, start⟩
      | cons position rest => exact ⟨position, rest, start⟩
  | succ budget ih =>
      cases queue with
      | nil => exact ⟨budget + 1, start⟩
      | cons position rest =>
          rw [run]
          cases found : constraints[position]? with
          | none => exact ⟨budget, rest, vars, start, .missing found⟩
          | some c =>
              dsimp only
              cases outcome : (c.invoke vars).2 with
              | error failure after => exact ⟨budget, rest, vars, start, .failed found outcome⟩
              | ok _ after =>
                  dsimp only
                  cases woke : wake constraints.size watchers after.changed.toList rest with
                  | error fault => exact ⟨budget, rest, vars, start, .unwatched found outcome woke⟩
                  | ok woken =>
                      exact ih _ _ (step budget position rest vars woken c after start ⟨found, outcome, woke⟩)

/-- What every successful step keeps of the variables holds at the end of a run, or before the step that goes
    wrong. -/
theorem run_invariant {constraints : Array Constraint} {motive : Variables → Prop} {vars : Variables}
    (watchers : Array (List Nat)) (budget : Nat) (queue : List Nat) (steps : Nat)
    (replies : Array (String × List Reply))
    (step : ∀ position rest before woken c after, motive before →
      Invokes constraints watchers position rest before woken c after → motive (forgetChanges after))
    (start : motive vars) :
    let result := run constraints watchers budget queue steps replies vars
    match result.ending with
    | .settled | .capped => motive result.vars
    | .failed position failure => ∃ rest before, motive before ∧
        Breaks constraints watchers position rest before failure result.vars := by
  intro result
  have ended := @run_induction constraints watchers (fun _ _ => motive) budget queue vars steps replies
    (fun _ position rest before woken c after => step position rest before woken c after) start
  change match result.ending with | .settled => _ | .capped => _ | .failed position failure => _ at ended
  cases ending : result.ending with
  | settled =>
      rw [ending] at ended
      exact ended.elim fun _ holds => holds
  | capped =>
      rw [ending] at ended
      obtain ⟨-, -, holds⟩ := ended
      exact holds
  | failed position failure =>
      rw [ending] at ended
      obtain ⟨-, rest, before, holds, breaks⟩ := ended
      exact ⟨rest, before, holds, breaks⟩

/-- What every constraint keeps, however it ends, is kept by a run, however that ends. A run fails for a reason that
    its constraints fail for, or because something is out of range. -/
theorem run_ensures {constraints : Array Constraint} {motive : Variables → Prop} {reason : Failure → Prop}
    {vars : Variables}
    (each : ∀ c ∈ constraints, ∀ before, motive before →
      Ensures c.propagate before (fun _ => motive) fun failure after => motive after ∧ reason failure)
    (forget : ∀ before, motive before → motive (forgetChanges before))
    (missing : ∀ index size, reason (.fault (.outOfRange index size))) (watchers : Array (List Nat)) (budget : Nat)
    (queue : List Nat) (steps : Nat) (replies : Array (String × List Reply)) (start : motive vars) :
    let result := run constraints watchers budget queue steps replies vars
    motive result.vars ∧ ∀ failure, result.failure? = some failure → reason failure := by
  intro result
  have invoked {c : Constraint} {position : Nat} (found : constraints[position]? = some c) {before : Variables} :=
    each c (Array.mem_of_getElem? found) before
  have step (position : Nat) (rest : List Nat) (before : Variables) (woken : List Nat) (c : Constraint)
      (after : Variables) (holds : motive before)
      (invokes : Invokes constraints watchers position rest before woken c after) : motive (forgetChanges after) := by
    have next := invoked invokes.found holds
    rw [Ensures, invokes.ran] at next
    exact forget after next
  have ended := run_invariant watchers budget queue steps replies step start
  change match result.ending with | .settled | .capped => _ | .failed position failure => _ at ended
  unfold failure?
  cases ending : result.ending with
  | settled | capped =>
      rw [ending] at ended
      exact ⟨ended, by simp⟩
  | failed position failure =>
      rw [ending] at ended
      simp only [Option.some.injEq, forall_eq']
      obtain ⟨rest, before, holds, breaks⟩ := ended
      cases breaks with
      | missing _ => exact ⟨holds, missing _ _⟩
      | failed found ran =>
          have next := invoked found holds
          rwa [Ensures, ran] at next
      | unwatched found ran woke =>
          have next := invoked found holds
          rw [Ensures, ran] at next
          obtain ⟨index, size, rfl⟩ := outOfRange_of_wake woke
          exact ⟨next, missing index size⟩

/-! ## Two runs -/

/-- Two constraints do the same to some variables, and the same is reported of both. -/
def ActAlike (vars : Variables) (c c' : Constraint) : Prop :=
  c'.invoke vars = c.invoke vars ∧ (c'.label = c.label ∨ (c.invoke vars).1 = none)

/-- Constraints that do the same, as long as something holds that they keep, run alike. -/
theorem run_congr {constraints constraints' : Array Constraint} {motive : Variables → Prop}
    (alike : List.Forall₂ (fun c c' => ∀ before, motive before → ActAlike before c c')
      constraints.toList constraints'.toList)
    (kept : ∀ c ∈ constraints, ∀ before, motive before →
      Ensures c.propagate before (fun _ after => motive (forgetChanges after)) fun _ _ => True)
    (watchers : Array (List Nat)) (budget : Nat) (queue : List Nat) (steps : Nat)
    (replies : Array (String × List Reply)) {vars : Variables} (start : motive vars) :
    run constraints' watchers budget queue steps replies vars =
      run constraints watchers budget queue steps replies vars := by
  obtain ⟨length, each⟩ := List.forall₂_iff_get.1 alike
  have size : constraints'.size = constraints.size := length.symm
  induction budget generalizing queue steps replies vars with
  | zero => cases queue <;> rfl
  | succ budget ih =>
      cases queue with
      | nil => rfl
      | cons position rest =>
          rw [run, run, size]
          by_cases inside : position < constraints.size
          · have inside' : position < constraints'.size := size.symm ▸ inside
            obtain ⟨invoked, told⟩ : ActAlike vars constraints[position] constraints'[position] :=
              each position inside inside' vars start
            have next := kept _ (Array.getElem_mem inside) vars start
            have reports (result : EStateM.Result Failure Variables Unit) :
                reported constraints'[position] (constraints[position].invoke vars).1 result =
                  reported constraints[position] (constraints[position].invoke vars).1 result := by
              rcases told with labels | silent
              · simp only [reported, labels]
              · simp only [reported, silent, Option.map_none]
            simp only [Array.getElem?_eq_getElem inside, Array.getElem?_eq_getElem inside', invoked, reports]
            cases outcome : (constraints[position].invoke vars).2 with
            | error failure after => rfl
            | ok _ after =>
                rw [Ensures, Constraint.propagate, outcome] at next
                dsimp only
                cases wake constraints.size watchers after.changed.toList rest with
                | error fault => rfl
                | ok woken => exact ih _ _ _ next
          · have outside : constraints'.size ≤ position := not_lt.1 (size.symm ▸ inside)
            simp only [Array.getElem?_eq_none (not_lt.1 inside), Array.getElem?_eq_none outside]

end Propagation

/-! ## Stores -/

namespace Store

/-- The store after a propagation, however it ended. -/
def afterPropagation (store : Store) : Store :=
  { store with vars := store.propagation.vars }

theorem propagate_eq (store : Store) :
    propagate store = match store.propagation.failure? with
      | some failure => .error failure store.afterPropagation
      | none => .ok () store.afterPropagation := rfl

theorem propagate_of_settled {store : Store} (ended : store.propagation.ending = .settled) :
    propagate store = .ok () store.afterPropagation := by
  rw [propagate_eq, Propagation.failure?, ended]

theorem uncapped_of_settled {store : Store} (ended : store.propagation.ending = .settled) :
    store.propagation.ending ≠ .capped := by
  rw [ended]
  exact Ending.noConfusion

theorem propagate_of_failed {store : Store} {position : Nat} {failure : Failure}
    (ended : store.propagation.ending = .failed position failure) :
    propagate store = .error failure store.afterPropagation := by
  rw [propagate_eq, Propagation.failure?, ended]

/-- A propagation that succeeds without using up its steps ends with an empty queue. -/
theorem settled_of_propagate {store after : Store} (ran : propagate store = .ok () after)
    (uncapped : store.propagation.ending ≠ .capped) :
    store.propagation.ending = .settled ∧ store.afterPropagation = after := by
  rw [propagate_eq, Propagation.failure?] at ran
  cases ended : store.propagation.ending with
  | settled =>
      rw [ended] at ran
      cases ran
      exact ⟨rfl, rfl⟩
  | capped => exact absurd ended uncapped
  | failed position failure => simp [ended] at ran

theorem failed_of_propagate {store after : Store} {failure : Failure}
    (ran : propagate store = .error failure after) :
    ∃ position, store.propagation.ending = .failed position failure ∧ store.afterPropagation = after := by
  rw [propagate_eq, Propagation.failure?] at ran
  cases ended : store.propagation.ending with
  | settled | capped => simp [ended] at ran
  | failed position failure' =>
      rw [ended] at ran
      cases ran
      exact ⟨position, rfl, rfl⟩

theorem failure?_of_propagate {store after : Store} {failure : Failure}
    (ran : propagate store = .error failure after) : store.propagation.failure? = some failure := by
  obtain ⟨position, ended, -⟩ := failed_of_propagate ran
  rw [Propagation.failure?, ended]

theorem afterPropagation_of_ok {store after : Store} (ran : propagate store = .ok () after) :
    store.afterPropagation = after := by
  rw [propagate_eq] at ran
  cases failure : store.propagation.failure? with
  | none =>
      rw [failure] at ran
      cases ran
      rfl
  | some other => simp [failure] at ran

/-- What the first invocation of the only constraint achieves, and all later ones keep, is achieved by a propagation. -/
theorem ensures_propagate_of_only {store : Store} {c : Constraint} {motive : Variables → Prop} {reason : Failure → Prop}
    (only : store.constraints = #[c]) (steps : 0 < store.config.effectiveMaxSteps)
    (first : Ensures c.propagate (Propagation.forgetChanges store.vars)
      (fun _ after => motive (Propagation.forgetChanges after)) fun failure _ => reason failure)
    (later : ∀ before, motive before → Ensures c.propagate before
      (fun _ after => motive (Propagation.forgetChanges after)) fun failure _ => reason failure)
    (missing : ∀ index size, reason (.fault (.outOfRange index size))) :
    Ensures propagate store (fun _ after => motive after.vars) fun failure _ => reason failure := by
  -- The queue is not empty and the budget is not used up before the first invocation.
  let begun (budget : Nat) (queue : List Nat) (vars : Variables) : Prop :=
    motive vars ∨ vars = Propagation.forgetChanges store.vars ∧ queue ≠ [] ∧ budget ≠ 0
  have invoked {budget : Nat} {queue : List Nat} {before : Variables} (so : begun budget queue before) :
      Ensures c.propagate before (fun _ after => motive (Propagation.forgetChanges after))
        fun failure _ => reason failure := by
    rcases so with holds | ⟨rfl, -⟩
    · exact later before holds
    · exact first
  have is_only {position : Nat} {d : Constraint} (found : store.constraints[position]? = some d) : d = c := by
    have member := Array.mem_of_getElem? found
    simpa [only] using member
  have result := @Propagation.run_induction store.constraints store.watchers begun store.config.effectiveMaxSteps
    (List.range store.constraints.size) (Propagation.forgetChanges store.vars) 0 #[]
    (fun budget position rest before woken d after so invokes => by
      obtain rfl := is_only invokes.found
      have next := invoked so
      rw [Ensures, invokes.ran] at next
      exact .inl next)
    (.inr ⟨rfl, by simp [only], steps.ne'⟩)
  change match store.propagation.ending with | .settled => _ | .capped => _ | .failed position failure => _ at result
  rw [Ensures, propagate_eq, Propagation.failure?]
  cases ended : store.propagation.ending with
  | settled =>
      rw [ended] at result
      obtain ⟨left, holds | ⟨-, some, -⟩⟩ := result
      · exact holds
      · exact absurd rfl some
  | capped =>
      rw [ended] at result
      obtain ⟨position, rest, holds | ⟨-, -, left⟩⟩ := result
      · exact holds
      · exact absurd rfl left
  | failed position failure =>
      rw [ended] at result
      obtain ⟨left, rest, before, so, breaks⟩ := result
      cases breaks with
      | missing _ => exact missing _ _
      | failed found ran =>
          obtain rfl := is_only found
          have fails := invoked so
          rwa [Ensures, ran] at fails
      | unwatched found ran woke =>
          obtain ⟨index, size, rfl⟩ := Propagation.outOfRange_of_wake woke
          exact missing index size

end Store

end StatBounds
