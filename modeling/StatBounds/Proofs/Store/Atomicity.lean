import StatBounds.Proofs.Store.Agreement
import StatBounds.Proofs.Store.Reachability

/-! # Batches are atomic

A batch that fails has not happened: nothing that is done to the store later, and no way to close the
batches around it, tells the difference. A batch that succeeds has done what its operations do without it.
-/

namespace StatBounds

namespace Variables.Close

variable {tracked kept : Prop} {vars others : Variables}

theorem restore (close : Close tracked kept vars others) (count : Nat) (saved : List (Var × Domain)) :
    Close tracked kept (saved.foldl (Variables.restore count) vars)
      (saved.foldl (Variables.restore count) others) := by
  induction saved generalizing vars others with
  | nil => exact close
  | cons entry rest ih =>
      refine ih ?_
      unfold Variables.restore
      split_ifs
      · exact { close with arena := by simp only [setDomain, close.arena] }
      · exact close

theorem rollback (close : Close tracked True vars others) (count trail : Nat) :
    Close tracked True (vars.rollback count trail) (others.rollback count trail) := by
  have restored := close.restore count (vars.trail.take (vars.trail.length - trail))
  unfold Variables.rollback
  rw [← (close.trail trivial).1]
  exact {
    arena := by simp only [restored.arena]
    names := by simp only [restored.arena, restored.names]
    ratio := restored.ratio
    changed := fun _ => rfl
    trail := fun _ => ⟨rfl, (restored.trail trivial).2⟩ }

end Variables.Close

namespace Store

variable {store other : Store}

theorem Same.close (same : store.Same other) : Close True store other :=
  ⟨same.toAlike, fun _ => same⟩

/-- Stores that are the same still are when a batch around them is closed. -/
theorem Same.closeBatch (same : store.Same other) (mark : Mark) (outcome : Option Failure) :
    (store.closeBatch mark outcome).Same (other.closeBatch mark outcome) := by
  cases outcome with
  | none => exact same.close.commit.2 trivial
  | some failure =>
      cases failure with
      | fault fault => exact same
      | error e =>
          have shallow : Variables.Close False True { store.vars with depth := store.vars.depth - 1 }
              { other.vars with depth := other.vars.depth - 1 } :=
            { same.close.vars with trail := fun _ => ⟨same.trail, congrArg (· - 1) same.depth⟩ }
          have back := shallow.rollback mark.vars mark.trail
          exact {
            arena := back.arena
            names := back.names
            ratio := back.ratio
            constraints := congrArg (·.take mark.constraints) same.constraints
            watchers := by simp only [Store.closeBatch, Store.rollback, same.watchers]
            config := same.config
            trail := (back.trail trivial).1
            depth := (back.trail trivial).2 }

end Store

theorem Matching.mono {ε σ α : Type} {related related' : σ → σ → Prop} {operation : EStateM ε σ α}
    {one other : σ} (both : Matching related operation one other)
    (weaker : ∀ after after', related after after' → related' after after') :
    Matching related' operation one other := by
  unfold Matching at both ⊢
  cases ran : operation one with
  | ok a after =>
      cases ran' : operation other with
      | ok b after' =>
          rw [ran, ran'] at both
          exact ⟨both.1, weaker _ _ both.2⟩
      | error f after' => simp [ran, ran'] at both
  | error e after =>
      cases ran' : operation other with
      | ok b after' => simp [ran, ran'] at both
      | error f after' =>
          rw [ran, ran'] at both
          exact ⟨both.1, weaker _ _ both.2⟩

/-- Batches are atomic at every store that can be reached, also inside other batches. -/
theorem Reachable.batch_atomic {batches : List Store} {store : Store} (reachable : Reachable batches store)
    {α : Type} {operation : StoreM α} (procedure : Procedure operation) :
    (∀ e inner, operation store.openBatch = .error (.error e) inner →
      ∃ after, Store.batch operation store = .error (.error e) after ∧ after.Same store ∧
        (∀ (β : Type) (later : StoreM β), Procedure later → Matching Store.Same later after store) ∧
        ∀ mark outcome, (after.closeBatch mark outcome).Same (store.closeBatch mark outcome)) ∧
    (∀ a inner, operation store.openBatch = .ok a inner →
      ∃ after plain, Store.batch operation store = .ok a after ∧ operation store = .ok a plain ∧
        after.Alike plain) := by
  obtain ⟨consistent, -⟩ := reachable.invariant
  have kept := procedure.ensures store.openBatch consistent.openBatch
  constructor
  · intro e inner ran
    rw [Ensures, ran] at kept
    have rolled := Store.rollback_eq consistent kept.1 (kept.2 e rfl)
    have batched : Store.batch operation store = .error (.error e) (inner.rollback store.mark) := by
      rw [Store.batch, ran]
      rfl
    have same : (inner.rollback store.mark).Same store := by
      rw [rolled]
      exact { Store.Same.refl store with }
    have again : (inner.rollback store.mark).Consistent := by
      rw [rolled]
      exact { consistent with }
    refine ⟨_, batched, same, fun β later procedure => ?_, same.closeBatch⟩
    exact (procedure.matching _ _ again consistent same.close).mono fun _ _ close => close.2 trivial
  · intro a inner ran
    have opened : Store.Close False store.openBatch store := ⟨{ Store.Alike.refl store with }, False.elim⟩
    have both := procedure.matching _ _ consistent.openBatch consistent opened
    unfold Matching at both
    cases plainly : operation store with
    | error failure plain => simp [ran, plainly] at both
    | ok b plain =>
        obtain ⟨rfl, close⟩ : a = b ∧ Store.Close False inner plain := by simpa [ran, plainly] using both
        exact ⟨inner.commit, plain, by rw [Store.batch, ran]; rfl, rfl, { close.1 with }⟩

/-- A batch that creates a variable and posts a sum before it fails. -/
theorem batch_atomic_sum_posted : ∃ (outer after : Store) (operation : StoreM Unit),
    operation = (Store.newBool "y" >>= fun v => Store.postSum [v] ⟨0⟩ >>= fun _ => throw (.error .emptyGrid)) ∧
      Reachable [] outer ∧ Store.batch operation outer = .error (.error .emptyGrid) after ∧
      after.Same outer := by
  obtain ⟨fresh, ratio, -, empty, none, -, outside⟩ := reachable_newBool
  have procedure : Procedure (Store.newBool "y" >>= fun v =>
      Store.postSum [v] ⟨0⟩ >>= fun _ => throw (.error .emptyGrid) : StoreM Unit) :=
    (Procedure.newBool "y").bind fun v => (Procedure.post _).bind fun _ => .fail _
  have ran : ∃ inner, (Store.newBool "y" >>= fun v =>
      Store.postSum [v] ⟨0⟩ >>= fun _ => throw (.error .emptyGrid) : StoreM Unit)
        (fresh.extended "x" (.finite (.range 0 1))).openBatch = .error (.error .emptyGrid) inner := by
    cases fresh
    subst empty none
    simp only [Bind.bind, EStateM.bind]
    rw [Store.newBool, Store.addVar_eq, if_neg (by simp [Store.openBatch, Store.extended, Variables.empty])]
    exact ⟨_, rfl⟩
  obtain ⟨inner, ran⟩ := ran
  obtain ⟨after, failed, same, -⟩ := (Reachable.batch_atomic outside procedure).1 _ inner ran
  exact ⟨_, after, _, rfl, outside, failed, same⟩

end StatBounds
