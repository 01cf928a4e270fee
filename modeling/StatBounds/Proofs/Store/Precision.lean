import StatBounds.Proofs.Store.Reachability
import StatBounds.Proofs.Store.Shrinking

/-! # Precisions stay valid

A real variable is created with a valid precision, and keeps it: no narrowing changes it, and a rollback puts back a
domain with the same one.
-/

namespace StatBounds

def Variables.Precise (vars : Variables) : Prop :=
  ∀ v x r, vars.get? v = some x → x.domain = .real r → validPrecision r.precision = true

namespace Variables

variable {before after : Variables}

theorem Precise.of_arena (precise : before.Precise) (same : after.arena = before.arena) : after.Precise :=
  fun v x r found => precise v x r (by rwa [get?, ← same])

theorem Shrunk.precise (shrunk : before.Shrunk after) (size : after.size = before.size) (precise : before.Precise) :
    after.Precise := by
  intro v y r found domain
  have known : v.index < after.size := (Array.getElem?_eq_some_iff.1 found).1
  have inside : v.index < before.arena.size := known.trans_eq size
  have there : before.get? v = some before.arena[v.index] := Array.getElem?_eq_getElem inside
  obtain ⟨z, here, -, part⟩ := shrunk v _ there
  obtain rfl := Option.some.inj (found.symm.trans here)
  rw [domain] at part
  cases old : before.arena[v.index].domain with
  | finite s =>
      rw [old] at part
      exact part.elim
  | real q =>
      rw [old] at part
      exact part.1 ▸ precise v _ q there old

end Variables

theorem Narrowing.precise {α : Type} {inside : Var → Prop} {operation : NarrowM α}
    (narrowing : Narrowing inside operation) (vars : Variables) (sound : vars.Sound) (precise : vars.Precise) :
    Ensures operation vars (fun _ after => after.Precise) fun _ after => after.Precise :=
  ((narrowing.shrunk vars sound).and (narrowing.narrowsWithin vars)).mono
    (fun _ _ ⟨shrunk, narrowed⟩ => shrunk.precise narrowed.size precise)
    fun _ _ ⟨shrunk, narrowed, _⟩ => shrunk.precise narrowed.size precise

namespace Store

variable {store : Store}

/-- A new variable keeps the precisions valid if its own is. -/
theorem precise_addVar {name : String} {domain : Domain}
    (valid : ∀ r, domain = .real r → validPrecision r.precision = true) (precise : store.vars.Precise) :
    Ensures (addVar name domain) store (fun _ after => after.vars.Precise) fun _ after => after.vars.Precise := by
  rw [Ensures, addVar_eq]
  split_ifs
  · exact precise
  · intro v x r found real
    rw [get?_extended] at found
    split_ifs at found
    · obtain rfl := Option.some.inj found
      exact valid r real
    · exact precise v x r found real

end Store

/-- However a procedure ends, the precisions are valid if they were before. -/
theorem Procedure.precise {α : Type} {operation : StoreM α} (procedure : Procedure operation) :
    ∀ store : Store, store.Consistent → store.vars.Precise → Ensures operation store
      (fun _ after => after.vars.Precise) fun _ after => after.vars.Precise := by
  induction procedure with
  | pure _ => exact fun store _ precise => precise
  | fail _ => exact fun store _ precise => precise
  | bind head tail ihHead ihTail =>
      intro store consistent precise
      refine ensures_bind.2 (((ihHead store consistent precise).and (head.ensures store consistent)).mono ?_
        fun _ _ fails => fails.1)
      rintro a middle ⟨still, consistent', -⟩
      exact ihTail a middle consistent' still
  | read tail same ih => exact fun store => ih store store
  | narrowing narrowing =>
      exact fun store consistent precise =>
        Store.ensures_onVars.2 (narrowing.precise store.vars consistent.sound precise)
  | newInt name values =>
      intro store _ precise
      unfold Store.newInt
      dsimp only
      split_ifs
      · exact precise
      · exact Store.precise_addVar (fun _ real => by cases real) precise
  | newIntRange name lo hi =>
      intro store _ precise
      unfold Store.newIntRange
      split_ifs
      · exact precise
      · exact Store.precise_addVar (fun _ real => by cases real) precise
  | newBool name => exact fun store _ precise => Store.precise_addVar (fun _ real => by cases real) precise
  | newReal name lo hi precision =>
      intro store _ precise
      obtain ⟨e, failed⟩ | ⟨⟨-, -, -, valid⟩, created⟩ := Store.newReal_cases name lo hi precision
      · rw [failed]
        exact precise
      · rw [created]
        refine Store.precise_addVar (fun r real => ?_) precise
        obtain rfl := Domain.real.inj real
        exact valid
  | post c =>
      intro store _ precise
      refine ensures_bind.2 ((Store.ensures_checkVars c.scope).mono ?_ ?_)
      · rintro _ after ⟨rfl, -⟩
        exact precise
      · rintro _ after ⟨rfl, -⟩
        exact precise
  | propagate =>
      intro store consistent precise
      let start := Propagation.forgetChanges store.vars
      have sound : start.Sound := consistent.sound
      have shrunk : start.Shrunk store.propagation.vars := Propagation.shrunk_run _ _ _ _ _ _ sound
      have narrowed : start.Narrowed store.propagation.vars := Propagation.narrowed_run _ _ _ _ _ _ start rfl
      have still := shrunk.precise narrowed.size (precise.of_arena rfl)
      rw [Ensures, Store.propagate_eq]
      cases store.propagation.failure? <;> exact still
  | @attempt α operation body ih =>
      intro store consistent precise
      have inner := ih store consistent precise
      unfold Ensures at inner ⊢
      rw [Store.attempt]
      cases outcome : operation store with
      | ok a after =>
          rw [outcome] at inner
          exact inner
      | error failure after =>
          rw [outcome] at inner
          cases failure <;> exact inner
  | @batch α operation body ih =>
      intro store consistent precise
      have inner := (ih store.openBatch consistent.openBatch (precise.of_arena rfl)).and
        (body.ensures store.openBatch consistent.openBatch)
      unfold Ensures at inner ⊢
      rw [Store.batch]
      cases outcome : operation store.openBatch with
      | ok a after =>
          rw [outcome] at inner
          exact inner.1.of_arena rfl
      | error failure after =>
          rw [outcome] at inner
          obtain ⟨still, consistent', within⟩ := inner
          cases failure with
          | fault _ => exact still
          | error e =>
              dsimp only [Store.closeBatch]
              rw [Store.rollback_eq consistent consistent' (within e rfl)]
              exact precise.of_arena rfl

/-- In every reachable store all precisions are valid, and so they were when its batches were opened. -/
theorem Reachable.precise {batches : List Store} {store : Store} (reachable : Reachable batches store) :
    store.vars.Precise ∧ ∀ outer ∈ batches, outer.vars.Precise := by
  induction reachable with
  | new made =>
      obtain ⟨_, -, same⟩ := bind_eq_ok.1 made
      obtain rfl := Except.ok.inj same
      exact ⟨fun v x r found => by simp [Variables.empty, Variables.get?] at found, by simp⟩
  | succeeded reachable procedure ran ih =>
      have kept := procedure.precise _ reachable.invariant.1 ih.1
      rw [Ensures, ran] at kept
      exact ⟨kept, ih.2⟩
  | failed reachable procedure ran ih =>
      have kept := procedure.precise _ reachable.invariant.1 ih.1
      rw [Ensures, ran] at kept
      exact ⟨kept, ih.2⟩
  | opened reachable ih => exact ⟨ih.1.of_arena rfl, List.forall_mem_cons.2 ih⟩
  | committed reachable ih => exact ⟨ih.1.of_arena rfl, (List.forall_mem_cons.1 ih.2).2⟩
  | @rolledBack batches outer store reachable ih =>
      obtain ⟨consistent, before, inner, nested⟩ := reachable.invariant
      obtain ⟨start, others⟩ := List.forall_mem_cons.1 ih.2
      rw [Store.rollback_eq before consistent inner]
      exact ⟨start.of_arena rfl, others⟩

end StatBounds
