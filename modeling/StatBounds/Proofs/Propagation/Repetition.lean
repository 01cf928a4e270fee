import StatBounds.Proofs.Propagation.Confluence

/-! # Propagating again after a failure

A constraint that fails either leaves the variables between what they were and a solution, or has emptied the
values of an integer variable. Without an empty domain the same constraint fails again, for it is monotone. But
an empty domain passes for one that no constraint has anything to do with, so the second propagation may succeed.
-/

namespace StatBounds

variable {α : Type} {known : Var → Prop} {operation : NarrowM α} {vars : Variables} {v w : Var} {x : Variable}

/-- An integer variable without a value. -/
def Variables.Emptied (vars : Variables) (v : Var) : Prop :=
  ∃ x s, vars.get? v = some x ∧ x.domain = .finite s ∧ s.isEmpty = true

/-! ## Operations that fail -/

section

variable {keep : Int → Bool}

/-- An empty domain passes every filter. -/
theorem retain_of_emptied {s : IntSet} (found : vars.get? v = some x) (domain : x.domain = .finite s)
    (none : s.isEmpty = true) : Variables.retain v keep vars = .ok false vars := by
  rw [retain_eq found domain, if_pos]
  rw [List.isEmpty_iff.1 none]
  rfl

theorem narrow_of_emptied {s : IntSet} {onto : Interval} (found : vars.get? v = some x)
    (domain : x.domain = .finite s) (none : s.isEmpty = true) : Variables.narrow v onto vars = .ok false vars := by
  rw [narrow_eq_finite found domain, retain_of_emptied found domain none, ite_self]

/-- What is once empty stays as it is. -/
theorem Local.keeps_emptied (isLocal : Local known operation) {s : IntSet} (domain : x.domain = .finite s)
    (none : s.isEmpty = true) (found : vars.get? v = some x) :
    Ensures operation vars (fun _ after => after.get? v = some x) fun _ after => after.get? v = some x := by
  induction isLocal generalizing vars with
  | pure a => exact found
  | fail _ => exact found
  | bind head tail ihHead ihTail =>
      exact ensures_bind.2 ((ihHead found).mono (fun a _ kept => ihTail a kept) fun _ _ => id)
  | read tail same ih => exact ih vars found
  | fetch _ => exact ensures_fetch (fun _ _ => found) fun _ => found
  | @retain w _ keep =>
      by_cases here : v = w
      · subst here
        rw [Ensures, retain_of_emptied found domain none]
        exact found
      · exact (sift_elsewhere here).mono (fun _ _ same => same.trans found) fun _ _ same => same.trans found
  | @narrow w _ onto =>
      by_cases here : v = w
      · subst here
        rw [Ensures, narrow_of_emptied found domain none]
        exact found
      · exact (narrow_elsewhere here).mono (fun _ _ same => same.trans found) fun _ _ same => same.trans found

/-- A filter that fails leaves things as they were, or leaves no value. -/
theorem retain_fails : Ensures (Variables.retain v keep) vars (fun _ _ => True)
    fun _ after => after = vars ∨ after.Emptied v := by
  cases found : vars.get? v with
  | none =>
      rw [Ensures, retain_missing found]
      exact .inl rfl
  | some x =>
      cases domain : x.domain with
      | real r =>
          rw [Ensures, retain_real found domain]
          exact .inl rfl
      | finite s =>
          rw [Ensures, retain_eq found domain]
          split_ifs with all none
          · trivial
          · have here := (Variables.replaced_setDomain vars v x.domain (.finite (s.filter keep))).here
            rw [found] at here
            exact .inr ⟨_, _, here, rfl, none⟩
          · trivial

theorem narrow_fails {onto : Interval} : Ensures (Variables.narrow v onto) vars (fun _ _ => True)
    fun _ after => after = vars ∨ after.Emptied v := by
  cases found : vars.get? v with
  | none =>
      rw [Ensures, narrow_missing found]
      exact .inl rfl
  | some x =>
      cases domain : x.domain with
      | finite s =>
          rw [Ensures, narrow_eq_finite found domain]
          split_ifs
          · exact retain_fails
          · trivial
      | real r =>
          rw [Ensures, narrow_eq_real found domain]
          dsimp only
          split_ifs
          · trivial
          · exact .inl rfl
          · trivial
          · trivial

end

/-- An operation that fails has not enlarged any domain, or has emptied one. -/
theorem Local.fails_inside (isLocal : Local known operation) (inside : vars.Inside vars) :
    Ensures operation vars (fun _ _ => True) fun _ after => after.Inside vars ∨ ∃ v, after.Emptied v := by
  induction isLocal generalizing vars with
  | pure a => trivial
  | fail _ => exact .inl inside
  | bind head tail ihHead ihTail =>
      refine ensures_bind.2 (((head.shrinks vars inside).and (ihHead inside)).mono (fun a middle both => ?_)
        fun _ _ both => both.2)
      exact (ihTail a both.1.self).mono (fun _ _ _ => trivial) fun _ _ ends =>
        ends.imp_left fun within => within.trans both.1
  | read tail same ih => exact ih vars inside
  | fetch _ => exact ensures_fetch (fun _ _ => trivial) fun _ => .inl inside
  | retain _ keep =>
      exact retain_fails.mono (fun _ _ => id) fun _ _ ends =>
        ends.imp (fun same => by rw [same]; exact inside) fun emptied => ⟨_, emptied⟩
  | narrow _ onto =>
      exact narrow_fails.mono (fun _ _ => id) fun _ _ ends =>
        ends.imp (fun same => by rw [same]; exact inside) fun emptied => ⟨_, emptied⟩

/-! ## Runs -/

namespace Propagation

variable {constraints : Array Constraint} {watchers : Array (List Nat)} {queue : List Nat} {position : Nat} {e : Error}

/-- What is once empty stays as it is in a run, however it ends. -/
theorem run_keeps_emptied (builtIn : ∀ c ∈ constraints, c.IsBuiltIn) {s : IntSet} (domain : x.domain = .finite s)
    (none : s.isEmpty = true) (found : vars.get? v = some x) (budget steps : Nat)
    (replies : Array (String × List Reply)) :
    (run constraints watchers budget queue steps replies vars).vars.get? v = some x := by
  let kept (later : Variables) : Prop := later.get? v = some x
  have each (c : Constraint) (member : c ∈ constraints) (before : Variables) (here : kept before) :
      Ensures c.propagate before (fun _ => kept) fun _ after => kept after ∧ True :=
    ((Constraint.local_scope (builtIn c member)).keeps_emptied domain none here).mono (fun _ _ still => still)
      fun _ _ still => ⟨still, trivial⟩
  exact (run_ensures each (fun _ => id) (fun _ _ => trivial) watchers budget queue steps replies found).1

/-- When a run fails, its last constraint has failed on variables that are no smaller than what it left, unless
    it has emptied one. -/
theorem run_fails_inside (builtIn : ∀ c ∈ constraints, c.IsBuiltIn) (inside : vars.Inside vars) (budget steps : Nat)
    (replies : Array (String × List Reply))
    (failed : (run constraints watchers budget queue steps replies vars).ending = .failed position (.error e)) :
    (∃ v, (run constraints watchers budget queue steps replies vars).vars.Emptied v) ∨
      ∃ c before, constraints[position]? = some c ∧
        c.propagate before = .error (.error e) (run constraints watchers budget queue steps replies vars).vars ∧
        (run constraints watchers budget queue steps replies vars).vars.Inside before := by
  have ended := run_invariant (motive := (·.Inside vars)) watchers budget queue steps replies
    (fun _ _ _ _ _ _ within invokes => invokes.inside builtIn within) inside
  simp only [failed] at ended
  obtain ⟨rest, before, within, breaks⟩ := ended
  generalize same : Failure.error e = failure at breaks
  generalize (run constraints watchers budget queue steps replies vars).vars = last at breaks ⊢
  cases breaks with
  | missing _ | unwatched _ _ _ => cases same
  | @failed c failure after found ran =>
      subst same
      have ends := (Constraint.local_scope (builtIn c (Array.mem_of_getElem? found))).fails_inside within.self
      rw [Ensures, ran] at ends
      exact ends.symm.imp_right fun smaller => ⟨c, before, found, ran, smaller⟩

/-- A run that comes to its end has invoked every constraint of its queue on variables that were no larger than
    at the start. -/
theorem run_invokes (builtIn : ∀ c ∈ constraints, c.IsBuiltIn) (inside : vars.Inside vars) {c : Constraint}
    (found : constraints[position]? = some c) (queued : position ∈ queue) (budget steps : Nat)
    (replies : Array (String × List Reply))
    (settled : (run constraints watchers budget queue steps replies vars).ending = .settled) :
    ∃ before after, before.Inside vars ∧ c.propagate before = .ok () after := by
  let Invoked : Prop := ∃ before after : Variables, before.Inside vars ∧ c.propagate before = .ok () after
  have step (budget p : Nat) (rest : List Nat) (before : Variables) (woken : List Nat) (d : Constraint)
      (after : Variables) (holds : before.Inside vars ∧ (position ∈ p :: rest ∨ Invoked))
      (invokes : Invokes constraints watchers p rest before woken d after) :
      (forgetChanges after).Inside vars ∧ (position ∈ woken ∨ Invoked) := by
    obtain ⟨within, waiting⟩ := holds
    refine ⟨invokes.inside builtIn within, ?_⟩
    rcases waiting with waiting | done
    · rcases List.mem_cons.1 waiting with rfl | later
      · obtain rfl : c = d := Option.some.inj (found.symm.trans invokes.found)
        exact .inr ⟨before, after, within, invokes.ran⟩
      · exact .inl ((wake_extends invokes.woke).1.subset later)
    · exact .inr done
  have ended := @run_induction constraints watchers
    (fun _ queue later => later.Inside vars ∧ (position ∈ queue ∨ Invoked)) budget queue vars steps replies step
    ⟨inside, .inl queued⟩
  simp only [settled] at ended
  obtain ⟨-, -, waiting | done⟩ := ended
  · exact absurd waiting List.not_mem_nil
  · exact done

end Propagation

/-! ## Stores -/

theorem Store.afterPropagation_of_emptied {store : Store} (builtIn : ∀ c ∈ store.constraints, c.IsBuiltIn)
    {s : IntSet} (domain : x.domain = .finite s) (none : s.isEmpty = true) (found : store.vars.get? v = some x) :
    store.afterPropagation.vars.get? v = some x := by
  have start : (Propagation.forgetChanges store.vars).get? v = some x := found
  exact Propagation.run_keeps_emptied builtIn domain none start _ _ _

/-- Unless an integer variable is empty, there are values in all domains. -/
theorem Variables.Sound.inside_of_not_emptied (sound : vars.Sound) (none : ∀ v, ¬ vars.Emptied v) :
    vars.Inside vars := by
  refine sound.inside_self fun x member => ?_
  obtain ⟨i, found⟩ := Array.getElem?_of_mem member
  have kept := sound x member
  cases domain : x.domain with
  | real r =>
      rw [domain] at kept
      exact kept.2
  | finite s =>
      by_contra empty
      exact none ⟨i⟩ ⟨x, s, found, domain, by simpa [Domain.isEmpty] using empty⟩

/-- When a propagation has reported an error, the next one reports that there is no solution, or there is a
    variable without a value, which is left as it is. -/
theorem Reachable.propagate_again {batches : List Store} {store after : Store} {e : Error}
    (reachable : Reachable batches store) (monotone : ∀ c ∈ store.constraints, c.IsMonotone)
    (fails : Store.propagate store = .error (.error e) after) (limits : after.propagation.WithinLimits) :
    (∃ e' last, e'.kind = .infeasible ∧ Store.propagate after = .error (.error e') last) ∨
      ∃ v, after.vars.Emptied v ∧ after.afterPropagation.vars.get? v = after.vars.get? v := by
  have builtIn (c : Constraint) (member : c ∈ store.constraints) := (monotone c member).isBuiltIn
  have honest (c : Constraint) (member : c ∈ store.constraints) := (monotone c member).failsInfeasibly
  have consistent : after.Consistent := (Reachable.failed reachable .propagate fails).invariant.1
  obtain ⟨position, ended, rfl⟩ := Store.failed_of_propagate fails
  by_cases emptied : ∃ v, store.afterPropagation.vars.Emptied v
  · obtain ⟨v, x, s, found, domain, none⟩ := emptied
    have kept : store.afterPropagation.afterPropagation.vars.get? v = some x :=
      Store.afterPropagation_of_emptied builtIn domain none found
    exact .inr ⟨v, ⟨x, s, found, domain, none⟩, kept.trans found.symm⟩
  have start : store.vars.Inside store.vars := by
    refine reachable.invariant.1.sound.inside_of_not_emptied fun v ⟨x, s, found, domain, empty⟩ => emptied ?_
    exact ⟨v, x, s, Store.afterPropagation_of_emptied builtIn domain empty found, domain, empty⟩
  rcases Propagation.run_fails_inside builtIn start.forgetChanges_left.self _ _ _ ended with
    nothing | ⟨c, before, found, failed, smaller⟩
  · exact absurd nothing emptied
  left
  rcases consistent.concludes builtIn limits with settled | ⟨p, e', again⟩
  · -- The constraint that failed is invoked again, on variables that are no larger, and succeeds.
    obtain ⟨before', _, within, ran⟩ := Propagation.run_invokes builtIn smaller.self.forgetChanges_left.self found
      (List.mem_range.2 (Array.getElem?_eq_some_iff.1 found).1) _ _ _ settled
    have follows := (monotone c (Array.mem_of_getElem? found)).follows (within.trans smaller.forgetChanges_left)
    rw [Follows, Ensures, ran] at follows
    change Ensures c.propagate before _ _ at follows
    rw [Ensures, failed] at follows
    exact absurd (Propagation.run_failsInfeasibly honest _ _ _ ended) follows
  · exact ⟨e', _, Propagation.run_failsInfeasibly honest _ _ _ again, Store.propagate_of_failed again⟩

/-- Two intervals that have nothing in common and should be equal. -/
theorem propagate_again_disjoint_intervals : ∃ (store after last : Store) (e : Error), Reachable [] store ∧
    Store.propagate store = .error (.error (.emptied "y")) after ∧ e.kind = .infeasible ∧
    Store.propagate after = .error (.error e) last := by
  let fresh : Store := {
    vars := .empty (Config.effectiveRatio {})
    constraints := #[], watchers := #[], config := {}, posted := #[] }
  let one := fresh.extended "x" (.real { interval := .ofBounds 0.0 1.0, precision := 0.5 })
  let two := one.extended "y" (.real { interval := .ofBounds 3.0 4.0, precision := 0.5 })
  let store := two.posting (.sum { terms := [⟨0⟩], total := ⟨1⟩ })
  have made : Store.ofConfig {} = .ok fresh := rfl
  have first : Store.newReal "x" 0.0 1.0 0.5 fresh = .ok ⟨0⟩ one := by
    change Store.addVar "x" (.real { interval := .ofBounds 0.0 1.0, precision := 0.5 }) fresh = _
    rw [Store.addVar_eq]
    simp [fresh, one, Variables.empty, Variables.size]
  have second : Store.newReal "y" 3.0 4.0 0.5 one = .ok ⟨1⟩ two := by
    change Store.addVar "y" (.real { interval := .ofBounds 3.0 4.0, precision := 0.5 }) one = _
    rw [Store.addVar_eq]
    simp [fresh, one, two, Store.extended, Variables.empty, Variables.size]
  have posted : Store.postSum [⟨0⟩] ⟨1⟩ two = .ok () store := rfl
  have reachable : Reachable [] store :=
    .succeeded (.succeeded (.succeeded (.new made) (.newReal "x" 0.0 1.0 0.5) first) (.newReal "y" 3.0 4.0 0.5) second)
      (.post _) posted
  have ended : store.propagation.ending = .failed 0 (.error (.emptied "y")) := by decide +kernel
  have again : store.afterPropagation.propagation.ending = .failed 0 (.error (.emptied "y")) := by decide +kernel
  have fails := Store.propagate_of_failed ended
  have monotone : ∀ c ∈ store.constraints, c.IsMonotone := by
    simp [store, Store.posting, two, one, fresh, Store.extended, Constraint.IsMonotone]
  have reals : ∀ x ∈ store.afterPropagation.vars.arena, x.domain.isFinite = false := by decide +kernel
  rcases Reachable.propagate_again reachable monotone fails ⟨by simp [again], by simp [again]⟩ with
    ⟨e, last, kind, fails'⟩ | ⟨v, ⟨x, s, found, domain, -⟩, -⟩
  · exact ⟨store, _, last, e, reachable, fails, kind, fails'⟩
  · have kind := reals x (Array.mem_of_getElem? found)
    rw [domain] at kind
    cases kind

/-- A truth variable is to be true, but the test that it stands for fails. The propagation leaves it without a
    value, and then finds nothing wrong with it. -/
theorem propagate_succeeds_after_failure : ∃ store after last : Store, Reachable [] store ∧
    (∀ c ∈ store.constraints, c.IsBuiltIn) ∧
    Store.propagate store = .error (.error (.emptied "b")) after ∧ (Error.emptied "b").kind = .infeasible ∧
    Store.propagate after = .ok () last ∧ after.propagation.ending = .settled := by
  let fresh : Store := {
    vars := .empty (Config.effectiveRatio {})
    constraints := #[], watchers := #[], config := {}, posted := #[] }
  let one := fresh.extended "x" (.finite (.ofList [5]))
  let two := one.extended "b" (.finite (.range 0 1))
  let three := two.posting (.reified { indicator := ⟨1⟩, atoms := [.below ⟨0⟩ 3.0] })
  let store : Store := { three with vars :=
    ((three.vars.save ⟨1⟩ (.finite (.range 0 1))).setDomain ⟨1⟩ (.finite (.range 1 1))).record ⟨1⟩ }
  have made : Store.ofConfig {} = .ok fresh := rfl
  have first : Store.newInt "x" [5] fresh = .ok ⟨0⟩ one := by
    have some : (IntSet.ofList [5]).isEmpty = false := by decide +kernel
    simp only [Store.newInt, some]
    change Store.addVar "x" (.finite (.ofList [5])) fresh = _
    rw [Store.addVar_eq]
    simp [fresh, one, Variables.empty, Variables.size]
  have second : Store.newBool "b" one = .ok ⟨1⟩ two := by
    rw [Store.newBool, Store.addVar_eq]
    simp [fresh, one, two, Store.extended, Variables.empty, Variables.size]
  have posted : Store.postReified ⟨1⟩ [.below ⟨0⟩ 3.0] two = .ok () three := rfl
  have narrowed : Store.narrow ⟨1⟩ { lo := 1.0, hi := 1.0 } three = .ok true store := rfl
  have reachable : Reachable [] store :=
    .succeeded (.succeeded (.succeeded (.succeeded (.new made) (.newInt "x" [5]) first) (.newBool "b") second)
      (.postReified _ _) posted) (.narrow _ _) narrowed
  have ended : store.propagation.ending = .failed 0 (.error (.emptied "b")) := by decide +kernel
  have again : store.afterPropagation.propagation.ending = .settled := by decide +kernel
  refine ⟨store, _, _, reachable, ?_, Store.propagate_of_failed ended, rfl, Store.propagate_of_settled again, again⟩
  simp [store, three, Store.posting, two, one, fresh, Store.extended, Constraint.IsBuiltIn]

end StatBounds
