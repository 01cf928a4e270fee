import StatBounds.Proofs.Propagation.Failures
import StatBounds.Proofs.Propagation.FixedPoint
import StatBounds.Proofs.Propagation.LinearFormulas
import StatBounds.Proofs.Propagation.MonotoneCounts
import StatBounds.Proofs.Store.Posting

/-! # The order of constraints does not matter

Domains for which no constraint has anything left to do stay inside the domains of every other run that starts
around them, since the constraints are monotone. So two runs over the same constraints that come to an end leave
the same domains, and one of them finds that there is no solution only if the other one does.
-/

namespace StatBounds

variable {small big : Variables}

/-! ## Monotone constraints -/

/-- The kinds of constraints that are known to be monotone. There are never as many as `2 ^ 63` items, and each bin
    has a count. -/
def Constraint.IsMonotone : Constraint → Prop
  | sum _ | reified _ => True
  | binCount c => c.items.length < 2 ^ 63 ∧ c.counts.length = c.filter.bins.length
  | formula _ | custom _ => False

namespace Constraint

variable {c : Constraint}

theorem IsMonotone.isBuiltIn (monotone : c.IsMonotone) : c.IsBuiltIn := by
  cases c with
  | formula _ | custom _ => exact monotone.elim
  | sum _ | reified _ | binCount _ => trivial

theorem IsMonotone.follows (monotone : c.IsMonotone) (inside : small.Inside big) :
    Follows small big c.propagate c.propagate fun _ _ => True := by
  cases c with
  | formula _ | custom _ => exact monotone.elim
  | sum c => exact c.follows inside
  | reified c => exact c.follows inside
  | binCount c => exact c.follows monotone.1 inside

theorem IsMonotone.failsInfeasibly (monotone : c.IsMonotone) : FailsInfeasibly c.propagate := by
  cases c with
  | formula _ | custom _ => exact monotone.elim
  | sum c => exact (FailsPlainly.sum c).infeasibly
  | reified c => exact (FailsPlainly.reified c).infeasibly
  | binCount c => exact FailsPlainly.binCount monotone.2

/-- A constraint of one of these kinds, or a linear formula. -/
def IsIsotone (c : Constraint) : Prop :=
  c.IsMonotone ∨ ∃ e target, c = .formula (.ofExpr e target) ∧ (Formula.ofExpr e target).IsLinear

theorem IsIsotone.isBuiltIn (isotone : c.IsIsotone) : c.IsBuiltIn := by
  rcases isotone with monotone | ⟨e, target, rfl, -⟩
  · exact monotone.isBuiltIn
  · exact ⟨e, target, rfl⟩

theorem IsIsotone.follows (isotone : c.IsIsotone) (inside : small.Inside big) :
    Follows small big c.propagate c.propagate fun _ _ => True := by
  rcases isotone with monotone | ⟨e, target, rfl, linear⟩
  · exact monotone.follows inside
  · exact linear.follows inside

theorem IsIsotone.failsInfeasibly (isotone : c.IsIsotone) : FailsInfeasibly c.propagate := by
  rcases isotone with monotone | ⟨e, target, rfl, -⟩
  · exact monotone.failsInfeasibly
  · exact (FailsPlainly.formula _).infeasibly

theorem IsBuiltIn.shrinks (builtIn : c.IsBuiltIn) : Shrinks c.propagate :=
  (Constraint.local_scope builtIn).shrinks

/-- Domains that a constraint leaves alone stay inside whatever it makes of larger ones. -/
theorem Settled.inside (settled : c.Settled small) (isotone : c.IsIsotone) (inside : small.Inside big) :
    Ensures c.propagate big (fun _ after => small.Inside after) fun failure _ => ¬ failure.Infeasible := by
  have follows := isotone.follows inside
  rw [Follows, Ensures, settled] at follows
  exact Ensures.mono follows (fun _ _ both => both.1) fun _ _ => id

end Constraint

/-! ## Runs -/

theorem Variables.Inside.forgetChanges (inside : small.Inside big) :
    small.Inside (Propagation.forgetChanges big) :=
  ⟨inside.size, inside.domain, inside.some⟩

theorem Variables.Inside.forgetChanges_left (inside : small.Inside big) :
    (Propagation.forgetChanges small).Inside big :=
  ⟨inside.size, inside.domain, inside.some⟩

namespace Propagation

variable {constraints : Array Constraint} {watchers : Array (List Nat)} {queue : List Nat} {vars fixed : Variables}

/-- A step of a run leaves no more of the variables than there was. -/
theorem Invokes.inside {position : Nat} {rest woken : List Nat} {c : Constraint} {before after : Variables}
    (invokes : Invokes constraints watchers position rest before woken c after)
    (builtIn : ∀ c ∈ constraints, c.IsBuiltIn) (within : before.Inside vars) : (forgetChanges after).Inside vars := by
  have shrinks := (builtIn c (Array.mem_of_getElem? invokes.found)).shrinks before within.self
  rw [Ensures, invokes.ran] at shrinks
  exact shrinks.forgetChanges_left.trans within

/-- A run that comes to an end leaves no more of the variables than there was. -/
theorem run_shrinks (builtIn : ∀ c ∈ constraints, c.IsBuiltIn) (inside : vars.Inside vars) (budget steps : Nat)
    (replies : Array (String × List Reply))
    (settled : (run constraints watchers budget queue steps replies vars).ending = .settled) :
    (run constraints watchers budget queue steps replies vars).vars.Inside vars := by
  have ended := run_invariant (motive := (·.Inside vars)) watchers budget queue steps replies
    (fun _ _ _ _ _ _ within invokes => invokes.inside builtIn within) inside
  simp only [settled] at ended
  exact ended

theorem run_inside (settled : ∀ c ∈ constraints, c.Settled fixed) (isotone : ∀ c ∈ constraints, c.IsIsotone)
    (inside : fixed.Inside vars) (budget steps : Nat) (replies : Array (String × List Reply)) :
    let result := run constraints watchers budget queue steps replies vars
    match result.ending with
    | .failed _ failure => ¬ failure.Infeasible
    | _ => fixed.Inside result.vars := by
  dsimp only
  have kept {c : Constraint} {position : Nat} (found : constraints[position]? = some c) {before : Variables}
      (within : fixed.Inside before) :=
    (settled c (Array.mem_of_getElem? found)).inside (isotone c (Array.mem_of_getElem? found)) within
  have step (position : Nat) (rest : List Nat) (before : Variables) (woken : List Nat) (c : Constraint)
      (after : Variables) (within : fixed.Inside before)
      (invokes : Invokes constraints watchers position rest before woken c after) :
      fixed.Inside (forgetChanges after) := by
    have still := kept invokes.found within
    rw [Ensures, invokes.ran] at still
    exact still.forgetChanges
  have ended := run_invariant watchers budget queue steps replies step inside
  cases ending : (run constraints watchers budget queue steps replies vars).ending with
  | settled | capped =>
      simp only [ending] at ended
      exact ended
  | failed position failure =>
      simp only [ending] at ended
      obtain ⟨rest, before, within, breaks⟩ := ended
      cases breaks with
      | missing _ | unwatched _ _ _ => exact id
      | @failed c failure after found ran =>
          have still := kept found within
          rw [Ensures, ran] at still
          exact still

/-- The number of steps was not reached, and all sums of counts fit in a word. -/
structure WithinLimits (p : Propagation) : Prop where
  uncapped : p.ending ≠ .capped
  noOverflow : ∀ position, p.ending ≠ .failed position (.fault .overflow)

/-- The propagation comes to a result: no constraint is left in the queue, or one of them reports an error. -/
def Concludes (p : Propagation) : Prop :=
  p.ending = .settled ∨ ∃ position e, p.ending = .failed position (.error e)

end Propagation

/-! ## Stores -/

theorem Domain.Inside.antisymm_finite {s : IntSet} {d : Domain} (inside : (finite s).Inside d)
    (inside' : d.Inside (finite s)) : d = finite s := by
  cases d with
  | real _ => exact inside.elim
  | finite t =>
      obtain ⟨values, increasing⟩ := s
      obtain ⟨values', increasing'⟩ := t
      obtain rfl : values' = values := increasing'.eq_of_mem_iff increasing fun n => ⟨inside' n, inside n⟩
      rfl

/-- Sound variables none of which is empty lie inside themselves. -/
theorem Variables.Sound.inside_self (sound : small.Sound) (some : ∀ x ∈ small.arena, x.domain.isEmpty = false) :
    small.Inside small where
  size := rfl
  domain v x found := by
    refine ⟨x, found, rfl, .refl ?_⟩
    have kept := sound x (Array.mem_of_getElem? found)
    cases domain : x.domain with
    | finite _ => trivial
    | real r =>
        rw [domain] at kept
        exact kept.1
  some v x found := some x (Array.mem_of_getElem? found)

/-- Variables that lie inside each other are the same, if all but integer variables are known to be. -/
theorem Variables.Inside.antisymm_on {known : Var → Prop} (finite : small.FiniteOn known)
    (others : ∀ v, ¬ known v → small.get? v = big.get? v) (inside : small.Inside big) (inside' : big.Inside small) :
    small.arena = big.arena := by
  refine Array.ext_getElem? fun i => ?_
  by_cases member : known ⟨i⟩
  · cases found : small.get? ⟨i⟩ with
    | none => exact found.trans (inside.get?_eq_none found).symm
    | some x =>
        obtain ⟨y, found', name, within⟩ := inside.domain ⟨i⟩ x found
        obtain ⟨x', again, -, within'⟩ := inside'.domain ⟨i⟩ y found'
        obtain rfl : x = x' := Option.some.inj (found.symm.trans again)
        refine found.trans (Eq.trans ?_ found'.symm)
        obtain ⟨s, domain⟩ := finite.domain member found
        have same : x.domain = y.domain :=
          domain ▸ (Domain.Inside.antisymm_finite (domain ▸ within) (domain ▸ within')).symm
        cases x
        cases y
        subst name same
        rfl
  · exact others ⟨i⟩ member

namespace Store

variable {one other : Store}

/-- What a run that comes to an end leaves stays inside every other run over constraints that then have nothing left
    to do. -/
theorem inside_of_settled (start : one.vars.Inside other.vars) (builtIn : ∀ c ∈ one.constraints, c.IsBuiltIn)
    (settled : ∀ c ∈ other.constraints, c.Settled one.propagation.vars)
    (isotone : ∀ c ∈ other.constraints, c.IsIsotone) (ended : one.propagation.ending = .settled) :
    match other.propagation.ending with
    | .failed _ failure => ¬ failure.Infeasible
    | _ => one.propagation.vars.Inside other.propagation.vars := by
  have shrunk : one.propagation.vars.Inside (Propagation.forgetChanges one.vars) :=
    Propagation.run_shrinks builtIn start.self.forgetChanges_left.self _ _ _ ended
  exact Propagation.run_inside settled isotone (shrunk.trans start.forgetChanges.forgetChanges_left) _ _ _

theorem Consistent.concludes (consistent : one.Consistent) (builtIn : ∀ c ∈ one.constraints, c.IsBuiltIn)
    (limits : one.propagation.WithinLimits) : one.propagation.Concludes := by
  cases ended : one.propagation.ending with
  | settled => exact .inl ended
  | capped => exact absurd ended limits.uncapped
  | failed position failure =>
      have fails : propagate one = .error failure one.afterPropagation := propagate_of_failed ended
      cases failure with
      | error e => exact .inr ⟨position, e, ended⟩
      | fault fault =>
          cases fault with
          | overflow => exact absurd ended (limits.noOverflow position)
          | outOfRange index size => exact absurd rfl (consistent.inRange_propagate builtIn fails index size)

/-- If a run comes to an end and leaves constraints with nothing to do, then so does every run over these that comes to
    a result, and it leaves no less. -/
theorem settles (start : one.vars.Inside other.vars) (builtIn : ∀ c ∈ one.constraints, c.IsBuiltIn)
    (settled : ∀ c ∈ other.constraints, c.Settled one.propagation.vars)
    (isotone : ∀ c ∈ other.constraints, c.IsIsotone) (ended : one.propagation.ending = .settled)
    (concludes : other.propagation.Concludes) :
    other.propagation.ending = .settled ∧ one.propagation.vars.Inside other.propagation.vars := by
  have inside := inside_of_settled start builtIn settled isotone ended
  rcases concludes with ended' | ⟨p, e, failed⟩
  · rw [ended'] at inside
    exact ⟨ended', inside⟩
  · have infeasible : (Failure.error e).Infeasible :=
      Propagation.run_failsInfeasibly (fun c member => (isotone c member).failsInfeasibly) _ _ _ failed
    rw [failed] at inside
    exact absurd infeasible inside

/-- A variable that no constraint looks at is left as it is. -/
theorem get?_propagation {known : Var → Prop} (finite : one.vars.FiniteOn known)
    (integral : ∀ c ∈ one.constraints, ∀ v ∈ c.scope, known v) (builtIn : ∀ c ∈ one.constraints, c.IsBuiltIn)
    (ended : one.propagation.ending = .settled) {v : Var} (unknown : ¬ known v) :
    one.propagation.vars.get? v = one.vars.get? v := by
  have step (position : Nat) (rest : List Nat) (before : Variables) (woken : List Nat) (c : Constraint)
      (after : Variables) (kept : before.FiniteOn known ∧ before.get? v = one.vars.get? v)
      (invokes : Propagation.Invokes one.constraints one.watchers position rest before woken c after) :
      (Propagation.forgetChanges after).FiniteOn known ∧
        (Propagation.forgetChanges after).get? v = one.vars.get? v := by
    have member := Array.mem_of_getElem? invokes.found
    have recorded := (Constraint.local_scope (builtIn c member)).records (integral c member) before kept.1
    rw [Ensures, invokes.ran] at recorded
    obtain ⟨recorded, records, -⟩ := recorded
    have missing : v ∉ recorded := fun listed => unknown (integral c member v (records.within v listed))
    exact ⟨records.finite, (records.others v missing).trans kept.2⟩
  have result := Propagation.run_invariant one.watchers one.config.effectiveMaxSteps
    (List.range one.constraints.size) 0 #[] step
    (show (Propagation.forgetChanges one.vars).FiniteOn known ∧ _ from ⟨finite, rfl⟩)
  rw [Store.propagation] at ended
  simp only [ended] at result
  exact result.2

/-- Two runs over the same integer variables and the same constraints that both come to a result come to the
    same. -/
theorem Consistent.confluent (consistent : one.Consistent) (consistent' : other.Consistent)
    (finite : one.vars.Finite) (finite' : other.vars.Finite) (start : one.vars.Inside other.vars)
    (start' : other.vars.Inside one.vars) (same : ∀ c, c ∈ one.constraints ↔ c ∈ other.constraints)
    (isotone : ∀ c ∈ one.constraints, c.IsIsotone) (concludes : one.propagation.Concludes)
    (concludes' : other.propagation.Concludes) :
    (∃ p e p' e', one.propagation.ending = .failed p (.error e) ∧ e.kind = .infeasible ∧
        other.propagation.ending = .failed p' (.error e') ∧ e'.kind = .infeasible) ∨
      (one.propagation.ending = .settled ∧ other.propagation.ending = .settled ∧
        one.propagation.vars.arena = other.propagation.vars.arena) := by
  have isotone' (c : Constraint) (member : c ∈ other.constraints) := isotone c ((same c).2 member)
  have builtIn (c : Constraint) (member : c ∈ one.constraints) := (isotone c member).isBuiltIn
  have builtIn' (c : Constraint) (member : c ∈ other.constraints) := (isotone' c member).isBuiltIn
  have settled (ended : one.propagation.ending = .settled) (c : Constraint) (member : c ∈ other.constraints) :
      c.Settled one.propagation.vars :=
    consistent.allSettled (fun _ _ _ _ x found => finite x (Array.mem_of_getElem? found)) builtIn ended c
      ((same c).2 member)
  have settled' (ended : other.propagation.ending = .settled) (c : Constraint) (member : c ∈ one.constraints) :
      c.Settled other.propagation.vars :=
    consistent'.allSettled (fun _ _ _ _ x found => finite' x (Array.mem_of_getElem? found)) builtIn' ended c
      ((same c).1 member)
  rcases concludes with ended | ⟨p, e, failed⟩
  · obtain ⟨ended', inside⟩ := settles start builtIn (settled ended) isotone' ended concludes'
    obtain ⟨-, inside'⟩ := settles start' builtIn' (settled' ended') isotone ended' (.inl ended)
    obtain ⟨settling, -⟩ := consistent.settling (finite.on : one.vars.FiniteOn fun _ => True)
      (fun _ _ _ _ => trivial) builtIn ended
    exact .inr ⟨ended, ended', inside.antisymm_on settling.finite (by simp) inside'⟩
  · rcases concludes' with ended' | ⟨p', e', failed'⟩
    · have ended := (settles start' builtIn' (settled' ended') isotone ended' (.inr ⟨p, e, failed⟩)).1
      rw [failed] at ended
      cases ended
    · have kind := Propagation.run_failsInfeasibly (fun c member => (isotone c member).failsInfeasibly) _ _ _ failed
      have kind' :=
        Propagation.run_failsInfeasibly (fun c member => (isotone' c member).failsInfeasibly) _ _ _ failed'
      exact .inl ⟨p, e, p', e', failed, kind, failed', kind'⟩

end Store

/-! ## Posting orders -/

/-- There are never as many as `2 ^ 63` items. -/
def Posting.Few : Posting → Prop
  | sum _ _ | reified _ _ => True
  | binCount items _ _ => items.length < 2 ^ 63

theorem Posting.isMonotone {p : Posting} {before after : Store} (few : p.Few)
    (ran : p.post before = .ok () after) : p.constraint.IsMonotone := by
  cases p with
  | sum _ _ | reified _ _ => trivial
  | binCount items bins counts => exact ⟨few, Store.lengths_of_postBinCount ran⟩

/-- Whatever order sums, conjunctions and bin counts over integer variables are posted in, propagation comes to
    the same result. -/
theorem Reachable.propagate_confluent {batches : List Store} {store one other : Store}
    {postings postings' : List Posting} (reachable : Reachable batches store) (new : store.constraints = #[])
    (finite : store.vars.Finite) (some : ∀ x ∈ store.vars.arena, x.domain.isEmpty = false)
    (few : ∀ p ∈ postings, p.Few) (perm : postings.Perm postings')
    (posted : postings.forM Posting.post store = .ok () one)
    (posted' : postings'.forM Posting.post store = .ok () other)
    (limits : one.propagation.WithinLimits) (limits' : other.propagation.WithinLimits) :
    (∃ e after e' after', e.kind = .infeasible ∧ e'.kind = .infeasible ∧
        Store.propagate one = .error (.error e) after ∧ Store.propagate other = .error (.error e') after') ∨
      ∃ after after', Store.propagate one = .ok () after ∧ Store.propagate other = .ok () after' ∧
        after.vars.arena = after'.vars.arena := by
  obtain ⟨reached, vars, constraints, each⟩ := Posting.forM_post reachable posted
  obtain ⟨reached', vars', constraints', -⟩ := Posting.forM_post reachable posted'
  have start : store.vars.Inside store.vars := reachable.invariant.1.sound.inside_self some
  have same (c : Constraint) : c ∈ one.constraints ↔ c ∈ other.constraints := by
    rw [← Array.mem_toList_iff, ← Array.mem_toList_iff, constraints, constraints', new]
    simpa using ((perm.map Posting.constraint).mem_iff (a := c))
  have monotone (c : Constraint) (member : c ∈ one.constraints) : c.IsMonotone := by
    rw [← Array.mem_toList_iff, constraints, new] at member
    obtain ⟨p, listed, rfl⟩ : ∃ p ∈ postings, p.constraint = c := by simpa using member
    obtain ⟨before, after, ran⟩ := each p listed
    exact Posting.isMonotone (few p listed) ran
  have concludes := reached.invariant.1.concludes (fun c member => (monotone c member).isBuiltIn) limits
  have concludes' := reached'.invariant.1.concludes (fun c member => (monotone c ((same c).2 member)).isBuiltIn)
    limits'
  rcases reached.invariant.1.confluent reached'.invariant.1 (vars ▸ finite) (vars' ▸ finite) (vars ▸ vars' ▸ start)
    (vars ▸ vars' ▸ start) same (fun c member => .inl (monotone c member)) concludes concludes' with
    ⟨p, e, p', e', ended, kind, ended', kind'⟩ | ⟨ended, ended', arena⟩
  · exact .inl ⟨e, _, e', _, kind, kind', Store.propagate_of_failed ended, Store.propagate_of_failed ended'⟩
  · exact .inr ⟨_, _, Store.propagate_of_settled ended, Store.propagate_of_settled ended', arena⟩

/-- A sum and a conjunction over the same term, in both orders. -/
theorem propagate_confluent_sum_and_conjunction : ∃ store one other after after' : Store, Reachable [] store ∧
    [Posting.sum [⟨0⟩] ⟨1⟩, .reified ⟨2⟩ [.atLeast ⟨0⟩ 2.0]].forM Posting.post store = .ok () one ∧
    [Posting.reified ⟨2⟩ [.atLeast ⟨0⟩ 2.0], .sum [⟨0⟩] ⟨1⟩].forM Posting.post store = .ok () other ∧
    Store.propagate one = .ok () after ∧ Store.propagate other = .ok () after' ∧
    after.vars.arena = after'.vars.arena ∧
    (after.vars.get? ⟨2⟩).map Variable.domain = some (.finite (.range 1 1)) := by
  let fresh : Store := {
    vars := .empty (Config.effectiveRatio {})
    constraints := #[], watchers := #[], config := {}, posted := #[] }
  let small := fresh.extended "x" (.finite (.range 0 3))
  let large := small.extended "y" (.finite (.range 2 5))
  let store := large.extended "b" (.finite (.range 0 1))
  let sum : Constraint := .sum { terms := [⟨0⟩], total := ⟨1⟩ }
  let conjunction : Constraint := .reified { indicator := ⟨2⟩, atoms := [.atLeast ⟨0⟩ 2.0] }
  let one := (store.posting sum).posting conjunction
  let other := (store.posting conjunction).posting sum
  have made : Store.ofConfig {} = .ok fresh := rfl
  have first : Store.newIntRange "x" 0 3 fresh = .ok ⟨0⟩ small := by
    change Store.addVar "x" (.finite (.range 0 3)) fresh = _
    rw [Store.addVar_eq]
    simp [fresh, small, Variables.empty, Variables.size]
  have second : Store.newIntRange "y" 2 5 small = .ok ⟨1⟩ large := by
    change Store.addVar "y" (.finite (.range 2 5)) small = _
    rw [Store.addVar_eq]
    simp [fresh, small, large, Store.extended, Variables.empty, Variables.size]
  have third : Store.newBool "b" large = .ok ⟨2⟩ store := by
    rw [Store.newBool, Store.addVar_eq]
    simp [fresh, small, large, store, Store.extended, Variables.empty, Variables.size]
  have reachable : Reachable [] store :=
    .succeeded (.succeeded (.succeeded (.new made) (.newIntRange "x" 0 3) first) (.newIntRange "y" 2 5) second)
      (.newBool "b") third
  have posted : [Posting.sum [⟨0⟩] ⟨1⟩, .reified ⟨2⟩ [.atLeast ⟨0⟩ 2.0]].forM Posting.post store = .ok () one := rfl
  have posted' : [Posting.reified ⟨2⟩ [.atLeast ⟨0⟩ 2.0], .sum [⟨0⟩] ⟨1⟩].forM Posting.post store = .ok () other :=
    rfl
  have finite : store.vars.Finite := by
    unfold Variables.Finite
    decide
  have ended : one.propagation.ending = .settled := by decide +kernel
  have ended' : other.propagation.ending = .settled := by decide +kernel
  have ran := Store.propagate_of_settled ended
  have ran' := Store.propagate_of_settled ended'
  rcases Reachable.propagate_confluent reachable rfl finite (by decide) (by simp [Posting.Few]) (List.Perm.swap _ _ [])
    posted posted' ⟨by simp [ended], by simp [ended]⟩ ⟨by simp [ended'], by simp [ended']⟩ with
    ⟨e, _, _, _, _, _, fails, _⟩ | ⟨after, after', same, same', arena⟩
  · rw [ran] at fails
    cases fails
  · rw [ran] at same
    rw [ran'] at same'
    cases same
    cases same'
    exact ⟨store, one, other, _, _, reachable, posted, posted', ran, ran', arena, by decide +kernel⟩

end StatBounds
