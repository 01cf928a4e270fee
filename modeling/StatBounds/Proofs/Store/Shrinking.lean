import StatBounds.Proofs.Propagation.Frames
import StatBounds.Proofs.Propagation.Order

/-! # Domains only shrink

Whatever is done to a store, short of taking a failed batch back, a variable keeps its name, its kind and its
precision, and takes no value that it has lost. This is shown of the single narrowings, and then of everything that
is made of them: constraints, whether built in or user-defined, propagations, batches, and operations that fail halfway.
-/

namespace StatBounds

/-! ## Variables -/

theorem Domain.Sound.proper {d : Domain} (sound : d.Sound) : d.Proper := by
  cases d with
  | finite _ => exact trivial
  | real _ => exact sound.1

/-- No value is new in a domain that lies inside another one. -/
theorem Domain.Inside.admits {d e : Domain} {c : Choice} (inside : d.Inside e) (admits : d.Admits c) :
    e.Admits c := by
  cases d with
  | finite s =>
      cases e with
      | real _ => exact inside.elim
      | finite t =>
          cases c with
          | int n => exact inside _ admits
          | real _ => exact admits.elim
  | real r =>
      cases e with
      | finite _ => exact inside.elim
      | real q =>
          cases c with
          | int _ => exact admits.elim
          | real _ => exact inside.2.encloses admits

namespace Variables

/-- Every variable is still there under its name, and its domain lies inside what it was. There may be new ones. -/
def Shrunk (before after : Variables) : Prop :=
  ∀ v x, before.get? v = some x → ∃ y, after.get? v = some y ∧ y.name = x.name ∧ y.domain.Inside x.domain

variable {before middle after vars : Variables} {v : Var} {d : Domain} {x : Variable}

theorem Shrunk.of_arena (sound : before.Sound) (same : after.arena = before.arena) : before.Shrunk after :=
  fun v x found => ⟨x, by rwa [get?, same], rfl, .refl (sound x (Array.mem_of_getElem? found)).proper⟩

theorem Shrunk.refl (sound : vars.Sound) : vars.Shrunk vars :=
  .of_arena sound rfl

theorem Shrunk.trans (first : before.Shrunk middle) (second : middle.Shrunk after) : before.Shrunk after := by
  intro v x found
  obtain ⟨y, there, name, within⟩ := first v x found
  obtain ⟨z, last, name', within'⟩ := second v y there
  exact ⟨z, last, name'.trans name, within'.trans within⟩

theorem Replaced.shrunk (replaced : before.Replaced v d after) (sound : before.Sound) (found : before.get? v = some x)
    (part : d.Inside x.domain) : before.Shrunk after := by
  intro w z there
  by_cases here : w = v
  · subst here
    obtain rfl := Option.some.inj (found.symm.trans there)
    exact ⟨{ x with domain := d }, by rw [replaced.here, found]; rfl, rfl, part⟩
  · exact ⟨z, (replaced.elsewhere w here).trans there, rfl, .refl (sound z (Array.mem_of_getElem? there)).proper⟩

end Variables

/-! ## Narrowing -/

section

variable {α : Type} {vars : Variables} {v : Var} {keep : List Int → Int → Bool}

theorem shrunk_sift (sound : vars.Sound) :
    Ensures (Variables.sift v keep) vars (fun _ => vars.Shrunk) fun _ => vars.Shrunk := by
  cases found : vars.get? v with
  | none =>
      rw [Ensures, sift_missing found]
      exact .refl sound
  | some x =>
      cases domain : x.domain with
      | real r =>
          rw [Ensures, sift_real found domain]
          exact .refl sound
      | finite s =>
          rcases sift_cases keep found domain with ⟨-, same⟩ | ⟨asked, -, same⟩
          · rw [Ensures, same]
            exact .refl sound
          · have part : (Domain.finite (s.sift keep asked)).Inside x.domain := by
              rw [domain]
              exact fun n member => (IntSet.sublist_passing keep asked s.values).subset member
            have replaced := Variables.replaced_setDomain vars v x.domain (.finite (s.sift keep asked))
            rw [Ensures, same]
            split_ifs
            · exact replaced.shrunk sound found part
            · exact (replaced.record v).shrunk sound found part

theorem shrunk_narrow {onto : Interval} (sound : vars.Sound) :
    Ensures (Variables.narrow v onto) vars (fun _ => vars.Shrunk) fun _ => vars.Shrunk := by
  cases found : vars.get? v with
  | none =>
      rw [Ensures, narrow_missing found]
      exact .refl sound
  | some x =>
      cases domain : x.domain with
      | finite s =>
          rw [Ensures, narrow_eq_finite found domain]
          split_ifs
          · exact shrunk_sift sound
          · exact .refl sound
      | real r =>
          have proper : r.interval.Proper := by
            simpa [domain, Domain.Proper] using (sound x (Array.mem_of_getElem? found)).proper
          have part : (Domain.real { r with interval := r.interval.intersect onto }).Inside x.domain :=
            domain ▸ ⟨rfl, Interval.within_intersect_left proper onto⟩
          have replaced := Variables.replaced_setDomain vars v x.domain
            (.real { r with interval := r.interval.intersect onto })
          rw [Ensures, narrow_eq_real found domain]
          dsimp only
          split_ifs
          · exact .refl sound
          · exact .refl sound
          · exact (replaced.record v).shrunk sound found part
          · exact replaced.shrunk sound found part

/-- Narrowing steps only shrink domains, wherever they stop, and also if some have failed and others go on. -/
theorem Narrowing.shrunk {inside : Var → Prop} {operation : NarrowM α} (narrowing : Narrowing inside operation) :
    ∀ vars : Variables, vars.Sound → Ensures operation vars (fun _ => vars.Shrunk) fun _ => vars.Shrunk := by
  induction narrowing with
  | pure _ => exact fun vars sound => .refl sound
  | fail _ => exact fun vars sound => .refl sound
  | bind head tail ihHead ihTail =>
      intro vars sound
      refine ensures_bind.2 (((ihHead vars sound).and (head.narrowsWithin vars)).mono ?_ fun _ _ fails => fails.1)
      rintro a middle ⟨first, narrowed⟩
      exact (ihTail a middle (narrowed.sound sound)).mono (fun _ _ => first.trans) fun _ _ => first.trans
  | read tail same ih => exact fun vars sound => ih vars vars sound
  | fetch _ => exact fun vars sound => ensures_fetch (fun _ _ => .refl sound) fun _ => .refl sound
  | sift _ keep => exact fun vars sound => shrunk_sift sound
  | narrow _ onto => exact fun vars sound => shrunk_narrow sound
  | @attempt act body ih =>
      intro vars sound
      have inner := ih vars sound
      unfold Ensures at inner ⊢
      simp only [Act.run]
      cases outcome : act.run vars with
      | ok reply after =>
          rw [outcome] at inner
          exact inner
      | error failure after =>
          rw [outcome] at inner
          cases failure <;> exact inner

end

/-! ## Propagations -/

/-- An invocation, however it ends, shrinks further what has shrunk before. -/
theorem Constraint.shrunk_further (c : Constraint) {start before : Variables} (sound : before.Sound)
    (shrunk : start.Shrunk before) : Ensures c.propagate before (fun _ after => after.Sound ∧ start.Shrunk after)
      fun _ after => after.Sound ∧ start.Shrunk after := by
  have narrowing := Narrowing.constraint c
  refine ((narrowing.shrunk before sound).and (narrowing.narrowsWithin before)).mono ?_ ?_
  · exact fun _ _ both => ⟨both.2.sound sound, shrunk.trans both.1⟩
  · exact fun _ _ both => ⟨both.2.1.sound sound, shrunk.trans both.1⟩

theorem Propagation.shrunk_run (constraints : Array Constraint) (watchers : Array (List Nat)) (budget : Nat)
    (queue : List Nat) (steps : Nat) (replies : Array (String × List Reply)) {vars : Variables} (sound : vars.Sound) :
    vars.Shrunk (run constraints watchers budget queue steps replies vars).vars := by
  let kept (before : Variables) : Prop := before.Sound ∧ vars.Shrunk before
  have each (c : Constraint) (_ : c ∈ constraints) (before : Variables) (still : kept before) :
      Ensures c.propagate before (fun _ => kept) fun _ after => kept after ∧ True :=
    (c.shrunk_further still.1 still.2).mono (fun _ _ => id) fun _ _ after => ⟨after, trivial⟩
  exact (run_ensures each (fun _ => id) (fun _ _ => trivial) watchers budget queue steps replies
    ⟨sound, .refl sound⟩).1.2

/-- Variables that no constraint addresses stay what they are, however a run ends. -/
theorem Propagation.elsewhere_run {constraints : Array Constraint} {v : Var} (builtIn : ∀ c ∈ constraints, c.IsBuiltIn)
    (apart : ∀ c ∈ constraints, v ∉ c.scope) (watchers : Array (List Nat)) (budget : Nat) (queue : List Nat)
    (steps : Nat) (replies : Array (String × List Reply)) (vars : Variables) :
    (run constraints watchers budget queue steps replies vars).vars.get? v = vars.get? v := by
  let kept (before : Variables) : Prop := before.get? v = vars.get? v
  have each (c : Constraint) (member : c ∈ constraints) (before : Variables) (still : kept before) :
      Ensures c.propagate before (fun _ => kept) fun _ after => kept after ∧ True := by
    have elsewhere := (Constraint.local_scope (builtIn c member)).elsewhere (apart c member) before
    exact elsewhere.mono (fun _ _ same => same.trans still) fun _ _ same => ⟨same.trans still, trivial⟩
  exact (run_ensures each (fun _ => id) (fun _ _ => trivial) watchers budget queue steps replies
    (show kept vars from rfl)).1

/-! ## Procedures -/

/-- However a procedure ends, it has only shrunk domains. The rollback of a batch that fails inside of it goes no
    further back than to the start of that batch. -/
theorem Procedure.shrunk {α : Type} {operation : StoreM α} (procedure : Procedure operation) :
    ∀ store : Store, store.Consistent → Ensures operation store (fun _ after => store.vars.Shrunk after.vars)
      fun _ after => store.vars.Shrunk after.vars := by
  have created {operation : StoreM Var} (creates : Store.Creates operation) (store : Store)
      (consistent : store.Consistent) : Ensures operation store (fun _ after => store.vars.Shrunk after.vars)
        fun _ after => store.vars.Shrunk after.vars := by
    obtain ⟨e, rfl⟩ | ⟨name, domain, -, rfl⟩ := creates
    · exact .refl consistent.sound
    · rw [Ensures, Store.addVar_eq]
      split_ifs
      · exact .refl consistent.sound
      · intro v x found
        have inside : v.index < store.vars.size := (Array.getElem?_eq_some_iff.1 found).1
        refine ⟨x, ?_, rfl, .refl (consistent.sound x (Array.mem_of_getElem? found)).proper⟩
        rw [Store.get?_extended, if_neg inside.ne, found]
  induction procedure with
  | pure _ => exact fun store consistent => .refl consistent.sound
  | fail _ => exact fun store consistent => .refl consistent.sound
  | bind head tail ihHead ihTail =>
      intro store consistent
      refine ensures_bind.2 (((ihHead store consistent).and (head.ensures store consistent)).mono ?_
        fun _ _ fails => fails.1)
      rintro a middle ⟨first, consistent', -⟩
      exact (ihTail a middle consistent').mono (fun _ _ => first.trans) fun _ _ => first.trans
  | read tail same ih => exact fun store consistent => ih store store consistent
  | narrowing narrowing =>
      exact fun store consistent => Store.ensures_onVars.2 (narrowing.shrunk store.vars consistent.sound)
  | newInt name values => exact created (Store.creates_newInt name values)
  | newIntRange name lo hi => exact created (Store.creates_newIntRange name lo hi)
  | newBool name => exact created (Store.creates_newBool name)
  | newReal name lo hi precision => exact created (Store.creates_newReal name lo hi precision)
  | post c =>
      intro store consistent
      refine ensures_bind.2 ((Store.ensures_checkVars c.scope).mono ?_ ?_)
      · rintro _ after ⟨rfl, -⟩
        exact .refl consistent.sound
      · rintro _ after ⟨rfl, -⟩
        exact .refl consistent.sound
  | propagate =>
      intro store consistent
      have sound : (Propagation.forgetChanges store.vars).Sound := consistent.sound
      have shrunk : store.vars.Shrunk store.propagation.vars := Propagation.shrunk_run _ _ _ _ _ _ sound
      rw [Ensures, Store.propagate_eq]
      cases store.propagation.failure? <;> exact shrunk
  | @attempt α operation body ih =>
      intro store consistent
      have inner := ih store consistent
      unfold Ensures at inner ⊢
      rw [Store.attempt]
      cases outcome : operation store with
      | ok a after =>
          rw [outcome] at inner
          exact inner
      | error failure after =>
          rw [outcome] at inner
          cases failure <;> exact inner
  | @batch α operation body ih =>
      intro store consistent
      have inner := (ih store.openBatch consistent.openBatch).and (body.ensures store.openBatch consistent.openBatch)
      unfold Ensures at inner ⊢
      rw [Store.batch]
      cases outcome : operation store.openBatch with
      | ok a after =>
          rw [outcome] at inner
          exact inner.1
      | error failure after =>
          rw [outcome] at inner
          obtain ⟨shrunk, consistent', within⟩ := inner
          cases failure with
          | fault _ => exact shrunk
          | error e =>
              dsimp only [Store.closeBatch]
              rw [Store.rollback_eq consistent consistent' (within e rfl)]
              exact .of_arena consistent.sound rfl

/-! ## Histories -/

/-- What may happen to a store short of a rollback: operations, which may fail, and batches around them. -/
inductive Store.Advances (first : Store) : Store → Prop
  | refl : Advances first first
  | succeeded {store after : Store} {α : Type} {operation : StoreM α} {a : α} (advances : Advances first store)
      (procedure : Procedure operation) (ran : operation store = .ok a after) : Advances first after
  | failed {store after : Store} {α : Type} {operation : StoreM α} {e : Error} (advances : Advances first store)
      (procedure : Procedure operation) (ran : operation store = .error (.error e) after) : Advances first after
  | opened {store : Store} (advances : Advances first store) : Advances first store.openBatch
  | committed {store : Store} (advances : Advances first store) : Advances first store.commit

namespace Store

variable {first last : Store}

theorem Advances.shrunk (advances : first.Advances last) (consistent : first.Consistent) :
    last.Consistent ∧ first.vars.Shrunk last.vars := by
  induction advances with
  | refl => exact ⟨consistent, .refl consistent.sound⟩
  | succeeded advances procedure ran ih =>
      have step := (procedure.shrunk _ ih.1).and (procedure.ensures _ ih.1)
      rw [Ensures, ran] at step
      exact ⟨step.2.1, ih.2.trans step.1⟩
  | failed advances procedure ran ih =>
      have step := (procedure.shrunk _ ih.1).and (procedure.ensures _ ih.1)
      rw [Ensures, ran] at step
      exact ⟨step.2.1, ih.2.trans step.1⟩
  | opened advances ih => exact ⟨ih.1.openBatch, ih.2⟩
  | committed advances ih => exact ⟨ih.1.commit, ih.2⟩

/-- A propagation of built-in constraints changes no variable that none of them concerns. -/
theorem propagate_elsewhere {store : Store} (builtIn : ∀ c ∈ store.constraints, c.IsBuiltIn) {v : Var}
    (apart : ¬ store.Concerns v) : Ensures propagate store (fun _ after => after.vars.get? v = store.vars.get? v)
      fun _ after => after.vars.get? v = store.vars.get? v := by
  have same : store.propagation.vars.get? v = store.vars.get? v :=
    Propagation.elsewhere_run builtIn (fun c member inScope => apart ⟨c, member, inScope⟩) _ _ _ _ _
      (Propagation.forgetChanges store.vars)
  rw [Ensures, propagate_eq]
  cases store.propagation.failure? <;> exact same

end Store

/-- The variables that an operation of a user-defined constraint addresses. -/
def Act.addressed : Act → List Var
  | narrow v _ | restrict v _ | sift v _ | see v => [v]
  | enforce a | refute a | truth a => [a.var]
  | count | fail _ => []
  | attempt act => act.addressed

/-- An operation on a variable changes no other one, however it ends. -/
theorem Act.elsewhere {w : Var} : ∀ (act : Act), w ∉ act.addressed → ∀ vars : Variables,
    Ensures act.run vars (fun _ after => after.get? w = vars.get? w) fun _ after => after.get? w = vars.get? w := by
  have leaves {v : Var} {α : Type} {operation : NarrowM α} (isLocal : Local (v = ·) operation) (f : α → Reply)
      (apart : ¬ v = w) (vars : Variables) : Ensures (operation >>= fun a => pure (f a)) vars
        (fun _ after => after.get? w = vars.get? w) fun _ after => after.get? w = vars.get? w :=
    (isLocal.bind fun a => .pure (f a)).elsewhere apart vars
  intro act
  induction act with
  | narrow v onto => exact fun apart => leaves (.narrow rfl onto) _ (by simpa [addressed, eq_comm] using apart)
  | restrict v onto => exact fun apart => leaves (.restrict rfl onto) _ (by simpa [addressed, eq_comm] using apart)
  | sift v keep =>
      intro apart vars
      have other : w ≠ v := by simpa [addressed] using apart
      exact ensures_bind.2 ((sift_elsewhere other).mono (fun _ _ same => same) fun _ _ same => same)
  | enforce a => exact fun apart => leaves (.enforce rfl) _ (by simpa [addressed, eq_comm] using apart)
  | refute a => exact fun apart => leaves (.refute rfl) _ (by simpa [addressed, eq_comm] using apart)
  | truth a => exact fun apart => leaves (.fetch rfl) _ (by simpa [addressed, eq_comm] using apart)
  | see v => exact fun apart => leaves (.fetch rfl) _ (by simpa [addressed, eq_comm] using apart)
  | count => exact fun _ vars => rfl
  | fail e => exact fun _ vars => rfl
  | attempt act ih =>
      intro apart vars
      have inner := ih apart vars
      unfold Ensures at inner ⊢
      simp only [run]
      cases outcome : act.run vars with
      | ok reply after =>
          rw [outcome] at inner
          exact inner
      | error failure after =>
          rw [outcome] at inner
          cases failure <;> exact inner

/-- Whatever happens to a reachable store short of a rollback, its variables keep their names, kinds and precisions
    and only lose values. An operation of a constraint on a variable leaves all other variables alone, and a propagation
    of built-in constraints leaves those alone that no constraint concerns. -/
theorem Reachable.only_shrinks {batches : List Store} {store : Store} (reachable : Reachable batches store) :
    (∀ last, store.Advances last → store.vars.Shrunk last.vars) ∧
      (∀ (act : Act) (w : Var), w ∉ act.addressed → ∀ vars : Variables,
        Ensures act.run vars (fun _ after => after.get? w = vars.get? w) fun _ after => after.get? w = vars.get? w) ∧
      ((∀ c ∈ store.constraints, c.IsBuiltIn) → ∀ w, ¬ store.Concerns w →
        Ensures Store.propagate store (fun _ after => after.vars.get? w = store.vars.get? w)
          fun _ after => after.vars.get? w = store.vars.get? w) :=
  ⟨fun _ advances => (advances.shrunk reachable.invariant.1).2, fun act _ => act.elsewhere,
    fun builtIn _ => Store.propagate_elsewhere builtIn⟩

/-- Two variables that should be equal lose what the other one cannot take, and a third one loses nothing. -/
theorem only_shrinks_equal_ranges : ∃ store after : Store, Reachable [] store ∧
    Store.propagate store = .ok () after ∧ store.vars.Shrunk after.vars ∧
    after.vars.get? ⟨0⟩ = some { name := "x", domain := .finite (.range 2 3) } ∧
    after.vars.get? ⟨2⟩ = some { name := "z", domain := .finite (.range 0 9) } := by
  let ranges := Store.fresh.ranging [("x", 0, 3), ("y", 2, 5), ("z", 0, 9)]
  have reachable : Reachable [] ranges :=
    Store.reachable_ranging Store.reachable_fresh (by decide) (by decide) (by simp [Store.fresh, Variables.empty])
  let store := ranges.posting (.sum { terms := [⟨0⟩], total := ⟨1⟩ })
  have posted : Store.postSum [⟨0⟩] ⟨1⟩ ranges = .ok () store := rfl
  have reachable' : Reachable [] store := .succeeded reachable (.post _) posted
  have ended : store.propagation.ending = .settled := by decide +kernel
  have ran := Store.propagate_of_settled ended
  obtain ⟨shrinks, -, elsewhere⟩ := Reachable.only_shrinks reachable'
  have builtIn : ∀ c ∈ store.constraints, c.IsBuiltIn := by
    simp [store, ranges, Store.ranging, Store.posting, Store.fresh, Store.extended, Constraint.IsBuiltIn]
  have apart : ¬ store.Concerns ⟨2⟩ := by
    simp [Store.Concerns, store, ranges, Store.ranging, Store.posting, Store.fresh, Store.extended, Constraint.scope,
      Sum.scope]
  have third := elsewhere builtIn ⟨2⟩ apart
  rw [Ensures, ran] at third
  exact ⟨store, _, reachable', ran, shrinks _ (.succeeded .refl .propagate ran), by decide +kernel, third⟩

end StatBounds
