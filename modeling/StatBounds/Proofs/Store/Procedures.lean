import StatBounds.Proofs.Store.Rollback
import StatBounds.Store.Propagation

/-! # Procedures on a store

Whatever is done to a store is made of a few primitive operations. A procedure may look at the store,
choose how to go on, swallow errors and open batches of its own, so the body of a batch is a procedure.
-/

namespace StatBounds

namespace Store

/-- Two stores that no operation tells apart as long as the batches around it stay open: the same
    variables, names, constraints and watchers. -/
structure Alike (store other : Store) : Prop where
  arena : store.vars.arena = other.vars.arena
  names : store.vars.names = other.vars.names
  ratio : store.vars.ratio = other.vars.ratio
  constraints : store.constraints = other.constraints
  watchers : store.watchers = other.watchers
  config : store.config = other.config

/-- Run an operation and go on if it ends in an error, whose effects stay. A broken rule is not caught. -/
def attempt {α : Type} (operation : StoreM α) : StoreM (Except Error α) := fun store =>
  match operation store with
  | .ok a after => .ok (.ok a) after
  | .error (.error e) after => .ok (.error e) after
  | .error (.fault fault) after => .error (.fault fault) after

end Store

/-- An operation made of the primitive ones, in any order that the results and the store may decide. -/
inductive Procedure : {α : Type} → StoreM α → Prop
  | pure {α : Type} (a : α) : Procedure (pure a)
  | fail {α : Type} (failure : Failure) : Procedure (throw failure : StoreM α)
  | bind {α β : Type} {first : StoreM α} {rest : α → StoreM β} (head : Procedure first)
      (tail : ∀ a, Procedure (rest a)) : Procedure (first >>= rest)
  /-- Everything but the trail and the record of changes can be read. -/
  | read {α : Type} {next : Store → StoreM α} (tail : ∀ store, Procedure (next store))
      (same : ∀ store other : Store, store.Alike other → next store = next other) :
      Procedure (get >>= next)
  | narrowing {α : Type} {inside : Var → Prop} {operation : NarrowM α}
      (narrowing : Narrowing inside operation) : Procedure (Store.onVars operation)
  | newInt (name : String) (values : List Int) : Procedure (Store.newInt name values)
  | newIntRange (name : String) (lo hi : Int) : Procedure (Store.newIntRange name lo hi)
  | newBool (name : String) : Procedure (Store.newBool name)
  | newReal (name : String) (lo hi precision : Float) : Procedure (Store.newReal name lo hi precision)
  | post (c : Constraint) : Procedure (Store.post c)
  | propagate : Procedure Store.propagate
  | attempt {α : Type} {operation : StoreM α} (body : Procedure operation) :
      Procedure (Store.attempt operation)
  | batch {α : Type} {operation : StoreM α} (body : Procedure operation) : Procedure (Store.batch operation)

/-! ## Primitive operations -/

namespace Store

variable {store : Store}

theorem ensures_onVars {α : Type} {operation : NarrowM α} {ok : α → Store → Prop}
    {failed : Failure → Store → Prop} :
    Ensures (onVars operation) store ok failed ↔
      Ensures operation store.vars (fun a vars => ok a { store with vars })
        fun failure vars => failed failure { store with vars } := by
  simp only [Ensures, onVars]
  cases operation store.vars <;> rfl

theorem addVar_eq (name : String) (domain : Domain) :
    addVar name domain store =
      if store.vars.names.contains name then .error (.error (.nameInUse name)) store
      else .ok ⟨store.vars.size⟩ (store.extended name domain) := by
  cases used : store.vars.names.contains name <;>
    simp [addVar, onVars, Variables.create, used, Store.extended, Bind.bind, EStateM.bind, get, getThe,
      MonadStateOf.get, EStateM.get, throw, throwThe, MonadExceptOf.throw, EStateM.throw, set, EStateM.set,
      modify, modifyGet, MonadStateOf.modifyGet, EStateM.modifyGet, pure, EStateM.pure]

/-- An operation that refuses to create a variable, or creates one with a sound domain under a new name. -/
def Creates (operation : StoreM Var) : Prop :=
  (∃ e, operation = throw (.error e)) ∨ ∃ name domain, domain.Sound ∧ operation = addVar name domain

theorem creates_newInt (name : String) (values : List Int) : Creates (newInt name values) := by
  unfold newInt
  dsimp only
  split_ifs
  · exact .inl ⟨_, rfl⟩
  · exact .inr ⟨_, _, Domain.sound_finite _, rfl⟩

theorem creates_newIntRange (name : String) (lo hi : Int) : Creates (newIntRange name lo hi) := by
  unfold newIntRange
  split_ifs
  · exact .inl ⟨_, rfl⟩
  · exact .inr ⟨_, _, Domain.sound_finite _, rfl⟩

theorem creates_newBool (name : String) : Creates (newBool name) :=
  .inr ⟨_, _, Domain.sound_finite _, rfl⟩

/-- Bounds in the wrong order, bounds that are not numbers, and invalid precisions are refused. -/
theorem newReal_cases (name : String) (lo hi precision : Float) :
    (∃ e, newReal name lo hi precision = throw (.error e)) ∨
      (Binary64.IsNumber lo ∧ Binary64.IsNumber hi ∧ ¬ hi < lo ∧ validPrecision precision = true) ∧
        newReal name lo hi precision = addVar name (.real { interval := .ofBounds lo hi, precision }) := by
  unfold newReal checkPrecision
  by_cases valid : validPrecision precision = true
  · simp only [if_pos valid, orFail, pure_bind]
    split_ifs with invalid
    · exact .inl ⟨_, rfl⟩
    · simp only [Bool.or_eq_true, decide_eq_true_iff, not_or, Bool.not_eq_true, gt_iff_lt] at invalid
      obtain ⟨⟨numberLo, numberHi⟩, ordered⟩ := invalid
      exact .inr ⟨⟨numberLo, numberHi, ordered, valid⟩, rfl⟩
  · rw [if_neg valid]
    exact .inl ⟨_, rfl⟩

theorem creates_newReal (name : String) (lo hi precision : Float) :
    Creates (newReal name lo hi precision) := by
  obtain failed | ⟨⟨numberLo, numberHi, ordered, -⟩, created⟩ := newReal_cases name lo hi precision
  · exact .inl failed
  · have sound : Domain.Sound (.real { interval := .ofBounds lo hi, precision }) := by
      refine ⟨Interval.proper_ofBounds lo hi, ?_⟩
      rw [Interval.ofBounds_of_isNumber numberLo numberHi]
      exact decide_eq_false ordered
    exact .inr ⟨_, _, sound, created⟩

theorem newReal_eq {lo hi precision : Float} (precise : checkPrecision precision = .ok ())
    (numberLo : Binary64.IsNumber lo) (numberHi : Binary64.IsNumber hi) (ordered : ¬ hi < lo) (name : String) :
    newReal name lo hi precision = addVar name (.real { interval := .ofBounds lo hi, precision }) := by
  have valid : ¬ ((lo.isNaN || hi.isNaN || decide (hi < lo)) = true) := by
    simp only [Bool.or_eq_true, decide_eq_true_eq, not_or, Bool.not_eq_true]
    exact ⟨⟨numberLo, numberHi⟩, ordered⟩
  rw [newReal, precise, orFail, pure_bind]
  exact if_neg valid

theorem ensures_checkVar {v : Var} {ok : Unit → Store → Prop} {failed : Failure → Store → Prop} :
    Ensures (checkVar v) store ok failed ↔
      if store.vars.contains v then ok () store
      else failed (.error (.unknownVariable v store.vars.size)) store := by
  cases known : store.vars.contains v with
  | true => simp [checkVar, known]
  | false =>
      simp only [checkVar, ensures_bind, ensures_get, known]
      exact ensures_throw

/-- Checking variables changes nothing, and finds every one that does not exist. -/
theorem ensures_checkVars (vs : List Var) :
    Ensures (checkVars vs) store (fun _ after => after = store ∧ ∀ v ∈ vs, store.vars.contains v = true)
      fun failure after => after = store ∧ ∃ e, failure = .error e := by
  unfold checkVars
  induction vs with
  | nil => exact ⟨rfl, by simp⟩
  | cons v rest ih =>
      rw [List.forM, ensures_bind, ensures_checkVar]
      split_ifs with known
      · refine ih.mono (fun _ after checked => ⟨checked.1, fun w member => ?_⟩) fun _ _ fails => fails
        rcases List.mem_cons.1 member with rfl | later
        · exact known
        · exact checked.2 w later
      · exact ⟨rfl, _, rfl⟩

end Store

/-! ## Propagation -/

namespace Propagation

open Variables (Narrowed)

theorem narrowed_forgetChanges {before after : Variables} (clear : before.changed = #[])
    (narrowed : Narrowed before after) : Narrowed before (forgetChanges after) :=
  { narrowed with changed := ⟨[], by simp [forgetChanges, clear], by simp⟩ }

theorem narrowed_run (constraints : Array Constraint) (watchers : Array (List Nat)) (budget : Nat)
    (queue : List Nat) (steps : Nat) (replies : Array (String × List Reply)) (vars : Variables)
    (clear : vars.changed = #[]) :
    Narrowed vars (run constraints watchers budget queue steps replies vars).vars := by
  induction budget generalizing queue steps replies vars with
  | zero => cases queue <;> exact .refl vars
  | succ budget ih =>
      cases queue with
      | nil => exact .refl vars
      | cons position queue =>
          rw [run]
          cases constraints[position]? with
          | none => exact .refl vars
          | some c =>
              have invoked := (Narrowing.constraint c).narrowsWithin vars
              simp only [Ensures, Constraint.propagate] at invoked
              dsimp only
              cases outcome : (c.invoke vars).2 with
              | error failure after =>
                  rw [outcome] at invoked
                  exact invoked.1
              | ok _ after =>
                  rw [outcome] at invoked
                  dsimp only
                  cases wake constraints.size watchers after.changed.toList queue with
                  | error fault => exact invoked
                  | ok queue =>
                      have forgotten := narrowed_forgetChanges clear invoked
                      exact forgotten.trans (ih _ _ _ _ rfl)

end Propagation

namespace Store

variable {store : Store}

theorem Consistent.forgetChanges (consistent : store.Consistent) :
    Consistent { store with vars := Propagation.forgetChanges store.vars } :=
  { consistent with }

theorem Consistent.propagated (consistent : store.Consistent) :
    Consistent { store with vars := store.propagation.vars } :=
  consistent.forgetChanges.narrowed (Propagation.narrowed_run _ _ _ _ _ _ _ rfl)

theorem Within.propagated : store.Within { store with vars := store.propagation.vars } := by
  have cleared : store.Within { store with vars := Propagation.forgetChanges store.vars } :=
    { Within.refl store with }
  exact cleared.trans (Within.narrowed (Propagation.narrowed_run _ _ _ _ _ _ _ rfl))

end Store

/-! ## What procedures keep -/

theorem Store.Creates.ensures {operation : StoreM Var} (creates : Creates operation) {store : Store}
    (consistent : store.Consistent) :
    Ensures operation store (fun _ after => after.Consistent ∧ store.Within after)
      fun failure after => after.Consistent ∧ ∀ e, failure = .error e → store.Within after := by
  obtain ⟨e, rfl⟩ | ⟨name, domain, sound, rfl⟩ := creates
  · exact ⟨consistent, fun _ _ => .refl store⟩
  · rw [Ensures, Store.addVar_eq]
    cases used : store.vars.names.contains name with
    | true => exact ⟨consistent, fun _ _ => .refl store⟩
    | false => exact ⟨consistent.extended used sound, .extended⟩

/-- However a procedure ends, it leaves the store consistent. Unless it breaks a rule, it has also closed
    all batches that it opened. -/
theorem Procedure.ensures {α : Type} {operation : StoreM α} (procedure : Procedure operation) :
    ∀ store : Store, store.Consistent →
      Ensures operation store (fun _ after => after.Consistent ∧ store.Within after)
        fun failure after => after.Consistent ∧ ∀ e, failure = .error e → store.Within after := by
  induction procedure with
  | pure a => exact fun store consistent => ⟨consistent, .refl store⟩
  | fail failure => exact fun store consistent => ⟨consistent, fun _ _ => .refl store⟩
  | bind head tail ihHead ihTail =>
      intro store consistent
      rw [ensures_bind]
      refine (ihHead store consistent).mono (fun a middle first => ?_) fun _ _ fails => fails
      exact (ihTail a middle first.1).mono (fun b after second => ⟨second.1, first.2.trans second.2⟩)
        fun failure after fails => ⟨fails.1, fun e error => first.2.trans (fails.2 e error)⟩
  | read tail same ih => exact fun store consistent => ensures_bind.2 (ih store store consistent)
  | narrowing narrowing =>
      intro store consistent
      refine Store.ensures_onVars.2 ((narrowing.narrowsWithin store.vars).mono (fun _ vars narrowed => ?_)
        fun _ vars fails => ?_)
      · exact ⟨consistent.narrowed narrowed, .narrowed narrowed⟩
      · exact ⟨consistent.narrowed fails.1, fun _ _ => .narrowed fails.1⟩
  | newInt name values => exact fun _ => (Store.creates_newInt name values).ensures
  | newIntRange name lo hi => exact fun _ => (Store.creates_newIntRange name lo hi).ensures
  | newBool name => exact fun _ => (Store.creates_newBool name).ensures
  | newReal name lo hi precision => exact fun _ => (Store.creates_newReal name lo hi precision).ensures
  | post c =>
      intro store consistent
      refine ensures_bind.2 ((Store.ensures_checkVars c.scope).mono ?_ ?_)
      · rintro _ after ⟨rfl, known⟩
        exact ⟨consistent.posting known, .posting⟩
      · rintro failure after ⟨rfl, -⟩
        exact ⟨consistent, fun _ _ => .refl after⟩
  | propagate =>
      intro store consistent
      rw [Ensures, Store.propagate]
      cases store.propagation.failure? with
      | none => exact ⟨consistent.propagated, .propagated⟩
      | some failure => exact ⟨consistent.propagated, fun _ _ => .propagated⟩
  | @attempt α operation body ih =>
      intro store consistent
      have inner := ih store consistent
      unfold Ensures at inner ⊢
      rw [Store.attempt]
      cases outcome : operation store with
      | ok a after =>
          rw [outcome] at inner
          exact inner
      | error failure after =>
          rw [outcome] at inner
          cases failure with
          | error e => exact ⟨inner.1, inner.2 e rfl⟩
          | fault fault => exact inner
  | @batch α operation body ih =>
      intro store consistent
      have inner := ih store.openBatch consistent.openBatch
      unfold Ensures at inner ⊢
      rw [Store.batch]
      cases outcome : operation store.openBatch with
      | ok a after =>
          rw [outcome] at inner
          exact ⟨inner.1.commit, inner.2.commit consistent⟩
      | error failure after =>
          rw [outcome] at inner
          cases failure with
          | fault fault => exact ⟨inner.1, fun e error => absurd error (by simp)⟩
          | error e =>
              dsimp only [Store.closeBatch]
              rw [Store.rollback_eq consistent inner.1 (inner.2 e rfl)]
              exact ⟨{ consistent with }, fun _ _ => { Store.Within.refl store with }⟩

end StatBounds
