import StatBounds.Proofs.Propagation.Frames
import StatBounds.Proofs.Propagation.Invocations
import StatBounds.Proofs.Propagation.Order

/-! # Values with supports

A propagation need not remove a value just because no solution of all constraints has it. Suppose that every value of
some assignments has a support: for each constraint, one of the assignments that are left has the value too and is kept
by the constraint. Then an invocation keeps these assignments. So a propagation keeps what as many steps of this kind as
it takes invocations come down to, whether or not there is any solution.
-/

namespace StatBounds

/-- A constraint keeps one of some assignments, and for each value that one of fewer assignments gives to a variable of
    its scope, it keeps one of them that gives the same value. -/
structure Supported (among fewer : Set Assignment) (c : Constraint) : Prop where
  subset : fewer ⊆ among
  some : ∃ τ ∈ among, Keeps τ c.propagate fun _ => True
  each : ∀ σ ∈ fewer, ∀ v ∈ c.scope, ∃ τ ∈ among, τ v = σ v ∧ Keeps τ c.propagate fun _ => True

section

variable {among fewer : Set Assignment} {inside : Var → Prop} {c : Constraint}

theorem Supported.keepsOn (supported : Supported among fewer c) (builtIn : c.IsBuiltIn) (known : ∀ v ∈ c.scope, inside v)
    {vars : Variables} (admits : ∀ σ ∈ among, vars.AdmitsOn inside σ) :
    Ensures c.propagate vars (fun _ after => ∀ σ ∈ fewer, after.AdmitsOn inside σ)
      fun failure _ => ¬ failure.Infeasible := by
  have isLocal := (Constraint.local_scope builtIn).mono known
  -- What the constraint keeps for one assignment is enough for the value of another one that they share.
  have kept (τ : Assignment) (member : τ ∈ among) (keeps : Keeps τ c.propagate fun _ => True) :=
    keeps.on isLocal (admits τ member)
  have elsewhere {v : Var} (apart : v ∉ c.scope) := (Constraint.local_scope builtIn).elsewhere apart vars
  have all {after : Variables}
      (supports : ∀ τ ∈ among, Keeps τ c.propagate (fun _ => True) → after.AdmitsOn inside τ)
      (others : ∀ v, v ∉ c.scope → after.get? v = vars.get? v) : ∀ σ ∈ fewer, after.AdmitsOn inside σ := by
    intro σ member v x here found
    by_cases inScope : v ∈ c.scope
    · obtain ⟨τ, member', same, keeps⟩ := supported.each σ member v inScope
      exact same ▸ supports τ member' keeps v x here found
    · exact admits σ (supported.subset member) v x here ((others v inScope).symm.trans found)
  obtain ⟨τ, member, keeps⟩ := supported.some
  have feasible := kept τ member keeps
  unfold Ensures at kept elsewhere feasible ⊢
  cases ran : c.propagate vars with
  | ok _ after =>
      simp only [ran] at kept elsewhere ⊢
      exact all (fun τ member keeps => (kept τ member keeps).1) fun v apart => elsewhere apart
  | error failure after =>
      simp only [ran] at feasible ⊢
      exact feasible.2

end

namespace Store

variable {store : Store} {among : Nat → Set Assignment}

/-- A propagation succeeds if each invocation leaves assignments supported, and keeps what the last one leaves of them on
    any variables that include those which a constraint looks at. -/
theorem Consistent.propagate_supported (consistent : store.Consistent) {inside : Var → Prop}
    (builtIn : ∀ c ∈ store.constraints, c.IsBuiltIn) (plain : ∀ c ∈ store.constraints, FailsPlainly c.propagate)
    (supported : ∀ i < store.propagation.invocations, ∀ c ∈ store.constraints, Supported (among i) (among (i + 1)) c)
    (more : ∀ v, store.Concerns v → inside v) (admits : ∀ σ ∈ among 0, store.vars.AdmitsOn inside σ) :
    ∃ after, propagate store = .ok () after ∧
      ∀ σ ∈ among store.propagation.invocations, after.vars.AdmitsOn inside σ := by
  let level (i : Nat) (vars : Variables) : Prop := ∀ σ ∈ among i, vars.AdmitsOn inside σ
  have each (i : Nat) (less : i < store.propagation.invocations) (c : Constraint) (member : c ∈ store.constraints)
      (before : Variables) (holds : level i before) :=
    (supported i less c member).keepsOn (builtIn c member) (fun v inScope => more v ⟨c, member, inScope⟩) holds
  obtain ⟨k, ⟨queue, vars⟩, takes, counted, stops⟩ := @Propagation.run_takes store.constraints store.watchers
    (List.range store.constraints.size) (Propagation.forgetChanges store.vars) store.config.effectiveMaxSteps 0 #[]
  change store.propagation.steps = 0 + k at counted
  change Propagation.StopsAt _ _ _ k (queue, vars) store.propagation at stops
  have climbed (enough : k ≤ store.propagation.invocations) : level k vars := by
    have all : level (0 + k) vars := takes.climb (fun i less c member before holds =>
      (each i less c member before holds).mono (fun _ _ => id) fun _ _ _ => trivial) (by omega) admits
    rwa [Nat.zero_add] at all
  have finished (invoked : store.propagation.invocations = k) (same : store.propagation.vars = vars) :
      level store.propagation.invocations store.afterPropagation.vars := by
    rw [afterPropagation, same, invoked]
    exact climbed invoked.ge
  rw [propagate_eq, Propagation.failure?]
  cases ended : store.propagation.ending with
  | settled =>
      rw [Propagation.StopsAt, ended] at stops
      have invoked : store.propagation.invocations = k := by simp [Propagation.invocations, ended, counted]
      exact ⟨_, rfl, finished invoked stops.2.2⟩
  | capped =>
      rw [Propagation.StopsAt, ended] at stops
      have invoked : store.propagation.invocations = k := by simp [Propagation.invocations, ended, counted]
      exact ⟨_, rfl, finished invoked stops.2.2⟩
  | failed position failure =>
      -- Every constraint still has a support when the one at this position goes wrong.
      have less : k < store.propagation.invocations := by simp [Propagation.invocations, ended, counted]
      have failed := consistent.infeasible_of_propagate builtIn plain (propagate_of_failed ended)
      rw [Propagation.StopsAt, ended] at stops
      obtain ⟨-, rest, -, breaks⟩ := stops
      cases breaks with
      | missing _ => exact failed.elim
      | failed found ran =>
          have fails := each k less _ (Array.mem_of_getElem? found) _ (climbed less.le)
          rw [Ensures, ran] at fails
          exact absurd failed fails
      | unwatched found ran woke =>
          obtain ⟨index, size, rfl⟩ := Propagation.outOfRange_of_wake woke
          exact failed.elim

end Store

end StatBounds
