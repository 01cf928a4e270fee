import StatBounds.Proofs.Store.Procedures

/-! # Operations on stores that agree

An operation cannot see the trail or the record of changes, so it answers alike on two stores that agree
in all the rest, and they agree again afterwards. If they have the same trail as well, they keep that too.
-/

namespace StatBounds

/-! ## Two runs -/

/-- Two runs of one operation end in the same way, with the same answer and in related states. -/
def Matching {ε σ α : Type} (related : σ → σ → Prop) (operation : EStateM ε σ α) (one other : σ) : Prop :=
  match operation one, operation other with
  | .ok a after, .ok b after' => a = b ∧ related after after'
  | .error e after, .error f after' => e = f ∧ related after after'
  | _, _ => False

section

variable {ε σ α β : Type} {related : σ → σ → Prop} {one other : σ}

theorem Matching.bind {first : EStateM ε σ α} {rest : α → EStateM ε σ β}
    (head : Matching related first one other)
    (tail : ∀ a after after', first one = .ok a after → first other = .ok a after' →
      related after after' → Matching related (rest a) after after') :
    Matching related (first >>= rest) one other := by
  unfold Matching at head ⊢
  simp only [Bind.bind, EStateM.bind]
  cases ran : first one with
  | ok a after =>
      cases ran' : first other with
      | error f after' => simp [ran, ran'] at head
      | ok b after' =>
          obtain ⟨rfl, again⟩ : a = b ∧ related after after' := by simpa [ran, ran'] using head
          exact tail a after after' ran ran' again
  | error e after =>
      cases ran' : first other with
      | ok b after' => simp [ran, ran'] at head
      | error f after' => simpa [ran, ran'] using head

theorem Matching.read {next : σ → EStateM ε σ α} (same : next one = next other)
    (tail : Matching related (next one) one other) : Matching related (get >>= next) one other := by
  unfold Matching at tail ⊢
  rw [same] at tail
  simp only [Bind.bind, EStateM.bind, get, getThe, MonadStateOf.get, EStateM.get]
  rw [same]
  exact tail

theorem Matching.modify {change : σ → σ} (again : related (change one) (change other)) :
    Matching related (modify change : EStateM ε σ PUnit) one other :=
  ⟨rfl, again⟩

theorem Matching.forM {step : α → EStateM ε σ PUnit} {as : List α}
    (each : ∀ a ∈ as, ∀ one other, related one other → Matching related (step a) one other)
    (start : related one other) : Matching related (as.forM step) one other := by
  induction as generalizing one other with
  | nil => exact ⟨rfl, start⟩
  | cons a as ih =>
      rw [List.forM]
      exact (each a (by simp) one other start).bind fun _ _ _ _ _ again =>
        ih (fun a member => each a (by simp [member])) again

end

/-! ## Variables -/

/-- The variables agree, also in what changed if that is tracked, and in the trail if that is kept. -/
structure Variables.Close (tracked kept : Prop) (vars others : Variables) : Prop where
  arena : vars.arena = others.arena
  names : vars.names = others.names
  ratio : vars.ratio = others.ratio
  changed : tracked → vars.changed = others.changed
  trail : kept → vars.trail = others.trail ∧ vars.depth = others.depth

section

variable {tracked kept : Prop} {vars others : Variables}

open Variables (Close)

theorem Variables.Close.get? (close : Close tracked kept vars others) (v : Var) :
    vars.get? v = others.get? v := by
  rw [Variables.get?, Variables.get?, close.arena]

theorem Variables.Close.record (close : Close tracked kept vars others) (v : Var) :
    Close tracked kept (vars.record v) (others.record v) :=
  { close with changed := fun tracks => congrArg (·.push v) (close.changed tracks) }

theorem Variables.Close.replace (close : Close tracked kept vars others) (v : Var) (old domain : Domain) :
    Close tracked kept ((vars.save v old).setDomain v domain) ((others.save v old).setDomain v domain) := by
  have arena : (vars.save v old).arena = (others.save v old).arena := by
    unfold Variables.save
    split_ifs <;> exact close.arena
  refine ⟨?_, ?_, ?_, fun tracks => ?_, fun keeps => ?_⟩
  · simp only [Variables.setDomain, arena]
  · unfold Variables.save
    split_ifs <;> exact close.names
  · unfold Variables.save
    split_ifs <;> exact close.ratio
  · unfold Variables.save
    split_ifs <;> exact close.changed tracks
  · obtain ⟨trail, depth⟩ := close.trail keeps
    unfold Variables.save
    rw [depth]
    split_ifs
    · exact ⟨congrArg ((v, old) :: ·) trail, rfl⟩
    · exact ⟨trail, depth⟩

theorem matching_fetch (close : Close tracked kept vars others) (v : Var) :
    Matching (Close tracked kept) (Variables.fetch v) vars others := by
  refine Matching.read ?_ ?_
  · rw [close.get?, Variables.size, Variables.size, close.arena]
  · cases vars.get? v with
    | none => exact ⟨rfl, close⟩
    | some x => exact ⟨rfl, close⟩

theorem matching_sift (close : Close tracked kept vars others) (v : Var) (keep : List Int → Int → Bool) :
    Matching (Close tracked kept) (Variables.sift v keep) vars others := by
  refine (matching_fetch close v).bind fun x vars others _ _ close => ?_
  cases x.domain with
  | real r => exact ⟨rfl, close⟩
  | finite s =>
      dsimp only
      split
      · exact ⟨rfl, close⟩
      · split_ifs with none
        · exact (Matching.modify (close.replace v _ _)).bind fun _ _ _ _ _ close => ⟨rfl, close⟩
        · refine (Matching.modify (close.replace v _ _)).bind fun _ _ _ _ _ close => ?_
          exact (Matching.modify (close.record v)).bind fun _ _ _ _ _ close => ⟨rfl, close⟩

theorem matching_narrow (close : Close tracked kept vars others) (v : Var) (onto : Interval) :
    Matching (Close tracked kept) (Variables.narrow v onto) vars others := by
  refine (matching_fetch close v).bind fun x vars others _ _ close => ?_
  cases x.domain with
  | finite s =>
      dsimp only
      split_ifs
      · exact matching_sift close v _
      · exact ⟨rfl, close⟩
  | real r =>
      dsimp only
      split_ifs with same none
      · exact ⟨rfl, close⟩
      · exact ⟨rfl, close⟩
      · refine (Matching.modify (close.replace v _ _)).bind fun _ vars others _ _ close => ?_
        refine (Matching.modify ?_).bind fun _ _ _ _ _ close => ⟨rfl, close⟩
        rw [close.ratio]
        split_ifs
        · exact close.record v
        · exact close

/-- Operations made of narrowing steps do not tell variables that agree apart. -/
theorem Narrowing.matching {α : Type} {inside : Var → Prop} {operation : NarrowM α}
    (narrowing : Narrowing inside operation) {vars others : Variables}
    (close : Close tracked kept vars others) : Matching (Close tracked kept) operation vars others := by
  induction narrowing generalizing vars others with
  | pure a => exact ⟨rfl, close⟩
  | fail inRange => exact ⟨rfl, close⟩
  | bind head tail ihHead ihTail =>
      exact (ihHead close).bind fun a _ _ _ _ close => ihTail a close
  | read tail same ih => exact Matching.read (same _ _ close.arena) (ih vars close)
  | fetch known => exact matching_fetch close _
  | sift known keep => exact matching_sift close _ keep
  | narrow known onto => exact matching_narrow close _ onto
  | @attempt act body ih =>
      have inner := ih close
      unfold Matching at inner ⊢
      simp only [Act.run]
      cases ran : act.run vars with
      | ok reply after =>
          cases ran' : act.run others with
          | ok reply' after' => simpa [ran, ran'] using inner
          | error failure' after' => simp [ran, ran'] at inner
      | error failure after =>
          cases ran' : act.run others with
          | ok reply' after' => simp [ran, ran'] at inner
          | error failure' after' =>
              obtain ⟨rfl, close⟩ : failure = failure' ∧ Close tracked kept after after' := by
                simpa [ran, ran'] using inner
              cases failure <;> exact ⟨rfl, close⟩

end

/-! ## Stores -/

namespace Store

/-- The stores also have the same trail, so that the batches around them are closed alike. -/
structure Same (store other : Store) : Prop extends Alike store other where
  trail : store.vars.trail = other.vars.trail
  depth : store.vars.depth = other.vars.depth

/-- The stores are alike, and the same if the batches around them are to be closed alike. -/
def Close (kept : Prop) (store other : Store) : Prop :=
  store.Alike other ∧ (kept → store.Same other)

variable {kept : Prop} {store other : Store}

theorem Alike.refl (store : Store) : store.Alike store := ⟨rfl, rfl, rfl, rfl, rfl, rfl⟩

theorem Same.refl (store : Store) : store.Same store := ⟨.refl store, rfl, rfl⟩

/-- Stores that agree still do after their variables were replaced by such that agree. -/
theorem Close.withVars (close : Close kept store other) {tracked : Prop} {vars others : Variables}
    (agree : Variables.Close tracked kept vars others) :
    Close kept { store with vars := vars } { other with vars := others } := by
  have alike : Alike { store with vars := vars } { other with vars := others } :=
    { close.1 with arena := agree.arena, names := agree.names, ratio := agree.ratio }
  exact ⟨alike, fun keeps => ⟨alike, (agree.trail keeps).1, (agree.trail keeps).2⟩⟩

theorem Close.vars (close : Close kept store other) : Variables.Close False kept store.vars other.vars where
  arena := close.1.arena
  names := close.1.names
  ratio := close.1.ratio
  changed := False.elim
  trail keeps := ⟨(close.2 keeps).trail, (close.2 keeps).depth⟩

theorem matching_onVars {α : Type} {operation : NarrowM α} (close : Close kept store other)
    (inner : Matching (Variables.Close False kept) operation store.vars other.vars) :
    Matching (Close kept) (onVars operation) store other := by
  unfold Matching at inner ⊢
  simp only [onVars]
  cases ran : operation store.vars with
  | ok a after =>
      cases ran' : operation other.vars with
      | ok b after' =>
          rw [ran, ran'] at inner
          exact ⟨inner.1, close.withVars inner.2⟩
      | error f after' => simp [ran, ran'] at inner
  | error e after =>
      cases ran' : operation other.vars with
      | ok b after' => simp [ran, ran'] at inner
      | error f after' =>
          rw [ran, ran'] at inner
          exact ⟨inner.1, close.withVars inner.2⟩

theorem Close.extended (close : Close kept store other) (name : String) (domain : Domain) :
    Close kept (store.extended name domain) (other.extended name domain) := by
  have size : store.vars.size = other.vars.size := congrArg Array.size close.1.arena
  have alike : Alike (store.extended name domain) (other.extended name domain) :=
    { close.1 with
      arena := by simp only [Store.extended, close.1.arena]
      names := by simp only [Store.extended, close.1.names, size]
      watchers := congrArg (·.push []) close.1.watchers }
  exact ⟨alike, fun keeps => { alike with trail := (close.2 keeps).trail, depth := (close.2 keeps).depth }⟩

theorem Close.posting (close : Close kept store other) (c : Constraint) :
    Close kept (store.posting c) (other.posting c) := by
  have alike : Alike (store.posting c) (other.posting c) :=
    { close.1 with
      constraints := congrArg (·.push c) close.1.constraints
      watchers := by simp only [Store.posting, close.1.watchers, close.1.constraints] }
  exact ⟨alike, fun keeps => { alike with trail := (close.2 keeps).trail, depth := (close.2 keeps).depth }⟩

theorem Close.openBatch (close : Close kept store other) : Close kept store.openBatch other.openBatch := by
  have alike : Alike store.openBatch other.openBatch := { close.1 with }
  exact ⟨alike, fun keeps =>
    { alike with trail := (close.2 keeps).trail, depth := congrArg (· + 1) (close.2 keeps).depth }⟩

theorem Close.commit (close : Close kept store other) : Close kept store.commit other.commit := by
  have alike : Alike store.commit other.commit := { close.1 with }
  refine ⟨alike, fun keeps => { alike with trail := ?_, depth := congrArg (· - 1) (close.2 keeps).depth }⟩
  simp only [Store.commit, (close.2 keeps).depth, (close.2 keeps).trail]

/-- What was recorded as changed and the log of what was posted play no part. -/
theorem Close.forgetting (close : Close kept store other) (posted posted' : Array String) :
    Close kept { store with vars := { store.vars with changed := #[] }, posted }
      { other with vars := { other.vars with changed := #[] }, posted := posted' } := by
  have alike : Alike { store with vars := { store.vars with changed := #[] }, posted }
      { other with vars := { other.vars with changed := #[] }, posted := posted' } := { close.1 with }
  exact ⟨alike, fun keeps => { alike with trail := (close.2 keeps).trail, depth := (close.2 keeps).depth }⟩

theorem Creates.matching {operation : StoreM Var} (creates : Creates operation)
    (close : Close kept store other) : Matching (Close kept) operation store other := by
  obtain ⟨e, rfl⟩ | ⟨name, domain, -, rfl⟩ := creates
  · exact ⟨rfl, close⟩
  · unfold Matching
    rw [addVar_eq, addVar_eq, close.1.names]
    split_ifs
    · exact ⟨rfl, close⟩
    · exact ⟨congrArg (fun arena => Var.mk (Array.size arena)) close.1.arena, close.extended name domain⟩

theorem matching_checkVars (close : Close kept store other) (vs : List Var) :
    Matching (Close kept) (checkVars vs) store other := by
  refine Matching.forM (fun v _ store other close => ?_) close
  have size : store.vars.size = other.vars.size := congrArg Array.size close.1.arena
  refine Matching.read (by rw [Variables.contains, Variables.contains, size]) ?_
  split_ifs
  · exact ⟨rfl, close⟩
  · exact ⟨rfl, close⟩

end Store

/-! ## Procedures -/

namespace Propagation

variable {kept : Prop}

/-- Variables that agree are propagated alike. What is reported of user-defined constraints plays no part. -/
theorem run_close (constraints : Array Constraint) (watchers : Array (List Nat)) (budget : Nat)
    (queue : List Nat) (steps : Nat) (replies replies' : Array (String × List Reply))
    {vars others : Variables} (close : Variables.Close True kept vars others) :
    (run constraints watchers budget queue steps replies vars).ending =
        (run constraints watchers budget queue steps replies' others).ending ∧
      Variables.Close True kept (run constraints watchers budget queue steps replies vars).vars
        (run constraints watchers budget queue steps replies' others).vars := by
  induction budget generalizing queue steps replies replies' vars others with
  | zero => cases queue <;> exact ⟨rfl, close⟩
  | succ budget ih =>
      cases queue with
      | nil => exact ⟨rfl, close⟩
      | cons position queue =>
          rw [run, run]
          cases constraints[position]? with
          | none => exact ⟨rfl, close⟩
          | some c =>
              have invoked := (Narrowing.constraint c).matching close
              simp only [Matching, Constraint.propagate] at invoked
              dsimp only
              cases ran : (c.invoke vars).2 with
              | error failure after =>
                  cases ran' : (c.invoke others).2 with
                  | ok _ after' => simp [ran, ran'] at invoked
                  | error failure' after' =>
                      rw [ran, ran'] at invoked
                      exact ⟨by rw [invoked.1], invoked.2⟩
              | ok _ after =>
                  cases ran' : (c.invoke others).2 with
                  | error failure' after' => simp [ran, ran'] at invoked
                  | ok _ after' =>
                      rw [ran, ran'] at invoked
                      have agree : Variables.Close True kept after after' := invoked.2
                      dsimp only
                      rw [agree.changed trivial]
                      cases wake constraints.size watchers after'.changed.toList queue with
                      | error fault => exact ⟨rfl, agree⟩
                      | ok queue => exact ih _ _ _ _ { agree with changed := fun _ => rfl }

end Propagation

namespace Store

variable {kept : Prop} {store other : Store}

theorem matching_propagate (close : Close kept store other) :
    Matching (Close kept) propagate store other := by
  have cleared : Variables.Close True kept (Propagation.forgetChanges store.vars)
      (Propagation.forgetChanges other.vars) := { close.vars with changed := fun _ => rfl }
  have both := Propagation.run_close store.constraints store.watchers store.config.effectiveMaxSteps
    (List.range store.constraints.size) 0 #[] #[] cleared
  have same : other.propagation = Propagation.run store.constraints store.watchers
      store.config.effectiveMaxSteps (List.range store.constraints.size) 0 #[]
      (Propagation.forgetChanges other.vars) := by
    rw [propagation, close.1.constraints, close.1.watchers, close.1.config]
  rw [← same, ← propagation] at both
  have ended : store.propagation.failure? = other.propagation.failure? := by
    rw [Propagation.failure?, Propagation.failure?, both.1]
  unfold Matching
  rw [propagate, propagate, ended]
  cases other.propagation.failure? with
  | none => exact ⟨rfl, close.withVars both.2⟩
  | some failure => exact ⟨rfl, close.withVars both.2⟩

end Store

/-- A procedure does not tell stores that agree apart. -/
theorem Procedure.matching {α : Type} {operation : StoreM α} (procedure : Procedure operation)
    {kept : Prop} : ∀ store other : Store, store.Consistent → other.Consistent →
      Store.Close kept store other → Matching (Store.Close kept) operation store other := by
  induction procedure with
  | pure a => exact fun _ _ _ _ close => ⟨rfl, close⟩
  | fail failure => exact fun _ _ _ _ close => ⟨rfl, close⟩
  | bind head tail ihHead ihTail =>
      intro store other consistent consistent' close
      refine (ihHead store other consistent consistent' close).bind fun a after after' ran ran' close => ?_
      have kept := head.ensures store consistent
      have kept' := head.ensures other consistent'
      rw [Ensures, ran] at kept
      rw [Ensures, ran'] at kept'
      exact ihTail a after after' kept.1 kept'.1 close
  | read tail same ih =>
      intro store other consistent consistent' close
      exact Matching.read (same store other close.1) (ih store store other consistent consistent' close)
  | narrowing narrowing =>
      exact fun _ _ _ _ close => Store.matching_onVars close (narrowing.matching close.vars)
  | newInt name values => exact fun _ _ _ _ => (Store.creates_newInt name values).matching
  | newIntRange name lo hi => exact fun _ _ _ _ => (Store.creates_newIntRange name lo hi).matching
  | newBool name => exact fun _ _ _ _ => (Store.creates_newBool name).matching
  | newReal name lo hi precision =>
      exact fun _ _ _ _ => (Store.creates_newReal name lo hi precision).matching
  | post c =>
      exact fun _ _ _ _ close => (Store.matching_checkVars close c.scope).bind
        fun _ _ _ _ _ close => Matching.modify (close.posting c)
  | propagate => exact fun _ _ _ _ => Store.matching_propagate
  | @attempt α operation body ih =>
      intro store other consistent consistent' close
      have inner := ih store other consistent consistent' close
      unfold Matching at inner ⊢
      simp only [Store.attempt]
      cases ran : operation store with
      | ok a after =>
          cases ran' : operation other with
          | ok b after' => simpa [ran, ran'] using inner
          | error f after' => simp [ran, ran'] at inner
      | error e after =>
          cases ran' : operation other with
          | ok b after' => simp [ran, ran'] at inner
          | error f after' =>
              obtain ⟨rfl, close⟩ : e = f ∧ Store.Close kept after after' := by simpa [ran, ran'] using inner
              cases e <;> exact ⟨rfl, close⟩
  | @batch α operation body ih =>
      intro store other consistent consistent' close
      have inner := ih store.openBatch other.openBatch consistent.openBatch consistent'.openBatch close.openBatch
      have kept := body.ensures store.openBatch consistent.openBatch
      have kept' := body.ensures other.openBatch consistent'.openBatch
      unfold Matching at inner ⊢
      unfold Ensures at kept kept'
      rw [Store.batch, Store.batch]
      cases ran : operation store.openBatch with
      | ok a after =>
          cases ran' : operation other.openBatch with
          | error f after' => simp [ran, ran'] at inner
          | ok b after' =>
              rw [ran, ran'] at inner
              exact ⟨inner.1, inner.2.commit⟩
      | error e after =>
          cases ran' : operation other.openBatch with
          | ok b after' => simp [ran, ran'] at inner
          | error f after' =>
              rw [ran, ran'] at inner
              rw [ran] at kept
              rw [ran'] at kept'
              obtain ⟨rfl, ended⟩ := inner
              refine ⟨rfl, ?_⟩
              cases e with
              | fault fault => exact ended
              | error e =>
                  dsimp only [Store.closeBatch]
                  rw [Store.rollback_eq consistent kept.1 (kept.2 e rfl),
                    Store.rollback_eq consistent' kept'.1 (kept'.2 e rfl)]
                  exact close.forgetting _ _

end StatBounds
