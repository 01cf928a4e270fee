import StatBounds.Proofs.Propagation.Wakings

/-! # How many invocations a propagation needs

Every constraint is invoked once. Another invocation is called for by a value that an integer variable has lost, and
the variable calls for one of each constraint that watches it at most. So a propagation over integers is over before
all values are gone, whatever its constraints do, provided that the filters of the user-defined ones remove a value when
they refuse one. A test that refuses a value and lets it pass when it is asked again calls for invocations without end.
-/

namespace StatBounds

open Propagation (Invokes Breaks Step)

/-! ## Values to lose -/

namespace Variables

/-- The number of values of an integer variable. -/
def valueCount (vars : Variables) (v : Var) : Nat :=
  match (vars.get? v).map Variable.domain with
  | some (.finite s) => s.size
  | _ => 0

/-- The values that the variables can lose before one of them has none left, each with the weight of its variable. -/
def removable (weight : Var → Nat) (vars : Variables) : Nat :=
  ∑ i ∈ Finset.range vars.size, (vars.valueCount ⟨i⟩ - 1) * weight ⟨i⟩

variable {weight : Var → Nat} {vars before middle after : Variables} {v : Var} {x : Variable} {s : IntSet}

theorem removable_of_arena (same : before.arena = after.arena) : before.removable weight = after.removable weight := by
  simp only [removable, size, valueCount, get?, same]

@[simp] theorem removable_record (vars : Variables) (v : Var) :
    (vars.record v).removable weight = vars.removable weight :=
  removable_of_arena rfl

theorem valueCount_eq (found : vars.get? v = some x) (domain : x.domain = .finite s) : vars.valueCount v = s.size := by
  simp only [valueCount, found, Option.map_some, domain]

theorem removable_replaced (weight : Var → Nat) (found : vars.get? v = some x) (domain : x.domain = .finite s)
    (old : Domain) (kept : IntSet) :
    removable weight ((vars.save v old).setDomain v (.finite kept)) + (s.size - 1) * weight v =
      removable weight vars + (kept.size - 1) * weight v := by
  obtain ⟨index⟩ := v
  have arena := arena_replaced vars ⟨index⟩ old (.finite kept)
  generalize (vars.save ⟨index⟩ old).setDomain ⟨index⟩ (.finite kept) = replaced at arena
  have inside : index ∈ Finset.range vars.size :=
    Finset.mem_range.2 (Array.getElem?_eq_some_iff.1 found).1
  have size : replaced.size = vars.size := by simp only [Variables.size, arena, Array.size_modify]
  have self : replaced.valueCount ⟨index⟩ = kept.size := by
    have there : vars.arena[index]? = some x := found
    simp [valueCount, get?, arena, Array.getElem?_modify, there]
  have others (i : Nat) (other : i ∈ (Finset.range vars.size).erase index) :
      replaced.valueCount ⟨i⟩ = vars.valueCount ⟨i⟩ := by
    have apart : ¬ index = i := fun same => (Finset.mem_erase.1 other).1 same.symm
    simp only [valueCount, get?, arena, Array.getElem?_modify, if_neg apart]
  unfold removable
  rw [size, ← Finset.add_sum_erase _ _ inside, ← Finset.add_sum_erase _ _ inside,
    Finset.sum_congr rfl fun i other => by rw [others i other], self, valueCount_eq found domain]
  omega

/-- The variables are integers and have lost values that weigh as much as what has been recorded. -/
structure Spends (weight : Var → Nat) (before after : Variables) : Prop where
  finite : after.Finite
  charged : ∃ recorded, after.changed.toList = before.changed.toList ++ recorded ∧
    (recorded.map weight).sum + after.removable weight ≤ before.removable weight

theorem Spends.refl (finite : before.Finite) : Spends weight before before :=
  ⟨finite, [], by simp, by simp⟩

theorem Spends.trans (first : Spends weight before middle) (second : Spends weight middle after) :
    Spends weight before after := by
  obtain ⟨older, sameOlder, chargedOlder⟩ := first.charged
  obtain ⟨newer, sameNewer, chargedNewer⟩ := second.charged
  refine ⟨second.finite, older ++ newer, by rw [sameNewer, sameOlder, List.append_assoc], ?_⟩
  rw [List.map_append, List.sum_append]
  omega

end Variables

open Variables (Spends)

/-! ## Filters that remove -/

namespace IntSet

/-- Whenever the test refuses a value of a set, a value is gone after it has been asked about all of them once more. -/
def Removes (keep : List Int → Int → Bool) : Prop :=
  ∀ (s : IntSet) (asked : List Int), askedUntilRefusal keep [] s.values = some asked → (s.sift keep asked).size < s.size

theorem size_filter_lt {s : IntSet} {keep : Int → Bool} (some : s.values.all keep = false) :
    (s.filter keep).size < s.size := by
  obtain ⟨n, member, fails⟩ := List.all_eq_false.1 some
  exact List.length_filter_lt_length_iff_exists.2 ⟨n, member, fails⟩

/-- A test without memory refuses a value the second time too. -/
theorem removes_of_memoryless (keep : Int → Bool) : Removes fun _ => keep := by
  intro s asked refused
  have fails : s.values.all keep ≠ true := by
    rw [Ne, ← askedUntilRefusal_eq_none [], refused]
    simp
  rw [sift_eq_filter]
  exact size_filter_lt (Bool.eq_false_iff.2 fails)

end IntSet

/-- The filters of an operation remove a value when they refuse one. -/
def Act.Removes : Act → Prop
  | .sift _ keep => IntSet.Removes keep
  | .attempt act => act.Removes
  | _ => True

/-- The filters of a user-defined constraint remove a value when they refuse one. All others do. -/
def Constraint.Removes : Constraint → Prop
  | .custom c => ∀ vars, ∀ act ∈ c.plan vars, act.Removes
  | _ => True

/-! ## Operations -/

section

variable {α : Type} {weight : Var → Nat} {vars : Variables}

theorem Variables.Finite.of_replaced (finite : vars.Finite) (v : Var) (old : Domain) (s : IntSet) :
    ((vars.save v old).setDomain v (.finite s)).Finite := by
  intro x member
  rw [arena_replaced] at member
  obtain ⟨i, small, rfl⟩ := Array.getElem_of_mem member
  rw [Array.getElem_modify]
  split_ifs
  · rfl
  · exact finite _ (Array.getElem_mem _)

/-- A filter that removes what it refuses records a variable only when it has lost a value and is left with one. -/
theorem spends_sift (finite : vars.Finite) (v : Var) {keep : List Int → Int → Bool} (removes : IntSet.Removes keep) :
    Ensures (Variables.sift v keep) vars (fun _ => Spends weight vars) fun _ => Spends weight vars := by
  cases found : vars.get? v with
  | none =>
      rw [Ensures, sift_missing found]
      exact .refl finite
  | some x =>
      obtain ⟨s, domain⟩ := (finite.on : vars.FiniteOn fun _ => True).domain trivial found
      rcases sift_cases keep found domain with ⟨-, same⟩ | ⟨asked, refused, same⟩
      · rw [Ensures, same]
        exact .refl finite
      have less := removes s asked refused
      rw [Ensures, same]
      generalize s.sift keep asked = kept at less ⊢
      have replaced := Variables.removable_replaced weight found domain x.domain kept
      have changed := Variables.changed_replaced vars v x.domain (.finite kept)
      have integral := finite.of_replaced v x.domain kept
      split_ifs with none
      · -- A variable without values is not recorded.
        have empty : kept.size = 0 := List.length_eq_zero_iff.2 (List.isEmpty_iff.1 none)
        refine ⟨integral, [], by simp [changed], ?_⟩
        rw [empty] at replaced
        simp only [List.map_nil, List.sum_nil, Nat.zero_sub, Nat.zero_mul] at replaced ⊢
        omega
      · have left : 0 < kept.size := List.length_pos_iff.2 fun empty => none (List.isEmpty_iff.2 empty)
        refine ⟨integral, [v], by simp [Variables.record, changed], ?_⟩
        have lost : (kept.size - 1) * weight v + weight v ≤ (s.size - 1) * weight v := by
          rw [← Nat.succ_mul]
          exact Nat.mul_le_mul_right _ (by omega)
        simp only [Variables.removable_record, List.map_cons, List.map_nil, List.sum_cons, List.sum_nil, Nat.add_zero]
        omega

theorem spends_narrow (finite : vars.Finite) (v : Var) (onto : Interval) :
    Ensures (Variables.narrow v onto) vars (fun _ => Spends weight vars) fun _ => Spends weight vars := by
  cases found : vars.get? v with
  | none =>
      rw [Ensures, narrow_missing found]
      exact .refl finite
  | some x =>
      obtain ⟨s, domain⟩ := (finite.on : vars.FiniteOn fun _ => True).domain trivial found
      rw [Ensures, narrow_eq_finite found domain]
      split_ifs
      · exact spends_sift finite v (IntSet.removes_of_memoryless _)
      · exact .refl finite

/-- An operation pays for what it records if both parts of it do. -/
theorem spends_bind {β : Type} {first : NarrowM α} {rest : α → NarrowM β}
    (head : Ensures first vars (fun _ => Spends weight vars) fun _ => Spends weight vars)
    (tail : ∀ a, ∀ middle : Variables, middle.Finite →
      Ensures (rest a) middle (fun _ => Spends weight middle) fun _ => Spends weight middle) :
    Ensures (first >>= rest) vars (fun _ => Spends weight vars) fun _ => Spends weight vars := by
  refine ensures_bind.2 (head.mono (fun a middle first => ?_) fun _ _ fails => fails)
  exact (tail a middle first.finite).mono (fun _ _ second => first.trans second) fun _ _ second => first.trans second

/-- Whatever filters without memory pays for what it records, however it ends. -/
theorem Local.spends (weight : Var → Nat) {inside : Var → Prop} {operation : NarrowM α}
    (isLocal : Local inside operation) (finite : vars.Finite) :
    Ensures operation vars (fun _ => Spends weight vars) fun _ => Spends weight vars := by
  induction isLocal generalizing vars with
  | pure a => exact Spends.refl finite
  | fail inRange => exact Spends.refl finite
  | bind head tail ihHead ihTail => exact spends_bind (ihHead finite) fun a middle => ihTail a
  | read tail same ih => exact ensures_bind.2 (ih vars finite)
  | fetch known => exact ensures_fetch (fun _ _ => .refl finite) fun _ => .refl finite
  | retain known keep => exact spends_sift finite _ (IntSet.removes_of_memoryless keep)
  | narrow known onto => exact spends_narrow finite _ onto

theorem Act.spends (weight : Var → Nat) (act : Act) (removes : act.Removes) (finite : vars.Finite) :
    Ensures act.run vars (fun _ => Spends weight vars) fun _ => Spends weight vars := by
  have replied {β : Type} {operation : NarrowM β} (isLocal : Local (fun _ => True) operation) (f : β → Reply) :
      Ensures (operation >>= fun b => pure (f b)) vars (fun _ => Spends weight vars) fun _ => Spends weight vars :=
    (isLocal.bind fun b => .pure (f b)).spends weight finite
  induction act with
  | narrow v onto => exact replied (.narrow trivial onto) _
  | restrict v onto => exact replied (.restrict trivial onto) _
  | sift v keep => exact spends_bind (spends_sift finite v removes) fun _ _ => Spends.refl
  | enforce a => exact replied (.enforce trivial) _
  | refute a => exact replied (.refute trivial) _
  | truth a => exact replied (.fetch trivial) _
  | see v => exact replied (.fetch trivial) _
  | count => exact Spends.refl finite
  | fail e => exact Spends.refl finite
  | attempt act ih =>
      have inner := ih removes
      unfold Ensures at inner ⊢
      simp only [Act.run]
      cases outcome : act.run vars with
      | ok reply after =>
          rw [outcome] at inner
          exact inner
      | error failure after =>
          rw [outcome] at inner
          cases failure <;> exact inner

theorem Act.spends_all (weight : Var → Nat) {acts : List Act} (removes : ∀ act ∈ acts, act.Removes)
    (finite : vars.Finite) :
    Ensures (fun vars => (Act.runAll acts vars).2) vars (fun _ => Spends weight vars) fun _ => Spends weight vars := by
  induction acts generalizing vars with
  | nil => exact Spends.refl finite
  | cons first rest ih =>
      rw [Act.runAll_cons]
      exact spends_bind (first.spends weight (removes _ List.mem_cons_self) finite) fun _ middle =>
        ih fun act member => removes act (List.mem_cons_of_mem first member)

/-- Constraints pay for what they record if their filters remove what they refuse. -/
theorem Constraint.spends (weight : Var → Nat) {c : Constraint} (removes : c.Removes) (finite : vars.Finite) :
    Ensures c.propagate vars (fun _ => Spends weight vars) fun _ => Spends weight vars := by
  cases c with
  | formula f => exact (Local.formula (fun _ _ => trivial) fun _ _ => trivial).spends weight finite
  | sum c => exact (Local.sum fun _ _ => trivial).spends weight finite
  | reified c => exact (Local.reified fun _ _ => trivial).spends weight finite
  | binCount c => exact (Local.binCount fun _ _ => trivial).spends weight finite
  | custom c => exact Act.spends_all weight (removes vars.arena) finite

end

/-! ## Runs -/

namespace Propagation

variable {constraints : Array Constraint} {watchers : Array (List Nat)} {s t : List Nat × Variables}
  {queue woken : List Nat} {vars : Variables}

/-- The number of constraints that watch a variable. -/
def watcherCount (watchers : Array (List Nat)) (v : Var) : Nat :=
  (watchers[v.index]?.getD []).length

theorem length_enqueueAll {count : Nat} {positions : List Nat}
    (enqueued : positions.foldlM (enqueue count) queue = .ok woken) :
    woken.length ≤ queue.length + positions.length := by
  induction positions generalizing queue with
  | nil =>
      obtain rfl := Except.ok.inj enqueued
      exact le_rfl
  | cons position positions ih =>
      obtain ⟨middle, first, rest⟩ := bind_eq_ok.1 enqueued
      have shorter : middle.length ≤ queue.length + 1 := by
        unfold enqueue at first
        split_ifs at first
        · obtain rfl := Except.ok.inj first
          omega
        · obtain rfl := Except.ok.inj first
          simp
      have longer := ih rest
      rw [List.length_cons]
      omega

/-- A recorded variable puts no more constraints into the queue than watch it. -/
theorem length_wake {count : Nat} {changed : List Var} (woke : wake count watchers changed queue = .ok woken) :
    woken.length ≤ queue.length + (changed.map (watcherCount watchers)).sum := by
  induction changed generalizing queue with
  | nil =>
      obtain rfl := Except.ok.inj woke
      exact le_rfl
  | cons v changed ih =>
      obtain ⟨middle, first, rest⟩ := bind_eq_ok.1 woke
      have longer := ih rest
      dsimp only at first
      cases found : watchers[v.index]? with
      | none => simp [found] at first
      | some positions =>
          rw [found] at first
          have shorter := length_enqueueAll first
          simp only [List.map_cons, List.sum_cons, watcherCount, found, Option.getD_some] at longer ⊢
          omega

/-- A number of invocations leads from a queue and variables to the next ones. -/
inductive Takes (constraints : Array Constraint) (watchers : Array (List Nat)) :
    Nat → List Nat × Variables → List Nat × Variables → Prop
  | none (s : List Nat × Variables) : Takes constraints watchers 0 s s
  | step {k : Nat} {s t u : List Nat × Variables} (first : Step constraints watchers s t)
      (rest : Takes constraints watchers k t u) : Takes constraints watchers (k + 1) s u

/-- The constraints in the queue, together with the invocations that the variables can still call for. -/
def pending (watchers : Array (List Nat)) (s : List Nat × Variables) : Nat :=
  s.1.length + s.2.removable (watcherCount watchers)

/-- The variables are integers without recorded changes. -/
structure Clear (vars : Variables) : Prop where
  finite : vars.Finite
  changed : vars.changed = #[]

theorem Step.pending_lt (step : Step constraints watchers s t) (removes : ∀ c ∈ constraints, c.Removes)
    (clear : Clear s.2) : Clear t.2 ∧ pending watchers t + 1 ≤ pending watchers s := by
  obtain ⟨position, rest, c, after, same, invokes, next⟩ := step
  have known : c.Removes := removes c (Array.mem_of_getElem? invokes.found)
  have spends := c.spends (watcherCount watchers) known clear.finite
  rw [Ensures, invokes.ran] at spends
  obtain ⟨recorded, changed, charged⟩ := spends.charged
  have longer := length_wake invokes.woke
  rw [changed, clear.changed, List.nil_append] at longer
  refine ⟨⟨next ▸ spends.finite, by rw [next]; rfl⟩, ?_⟩
  have forgotten : (forgetChanges after).removable (watcherCount watchers) = after.removable (watcherCount watchers) :=
    Variables.removable_of_arena rfl
  rw [pending, pending, same, next, forgotten, List.length_cons]
  omega

theorem Takes.pending_le {k : Nat} (takes : Takes constraints watchers k s t)
    (removes : ∀ c ∈ constraints, c.Removes) (clear : Clear s.2) : k + pending watchers t ≤ pending watchers s := by
  induction takes with
  | none s => omega
  | step first rest ih =>
      obtain ⟨clear, less⟩ := first.pending_lt removes clear
      have := ih clear
      omega

/-- After a number of invocations within its budget a run stops because the queue is empty, because the budget is used
    up, or because the next constraint goes wrong. The first two leave the variables as they are. -/
def StopsAt (constraints : Array Constraint) (watchers : Array (List Nat)) (budget k : Nat)
    (s : List Nat × Variables) (result : Propagation) : Prop :=
  match result.ending with
  | .settled => k ≤ budget ∧ s.1 = [] ∧ result.vars = s.2
  | .capped => k = budget ∧ s.1 ≠ [] ∧ result.vars = s.2
  | .failed position failure => k < budget ∧ ∃ rest, s.1 = position :: rest ∧
      Breaks constraints watchers position rest s.2 failure result.vars

theorem StopsAt.succ {budget k : Nat} {result : Propagation} (stops : StopsAt constraints watchers budget k s result) :
    StopsAt constraints watchers (budget + 1) (k + 1) s result := by
  unfold StopsAt at stops ⊢
  cases ending : result.ending with
  | settled =>
      rw [ending] at stops
      exact stops.imp_left Nat.succ_le_succ
  | capped =>
      rw [ending] at stops
      exact stops.imp_left (congrArg (· + 1))
  | failed position failure =>
      rw [ending] at stops
      exact stops.imp_left Nat.succ_lt_succ

/-- An invocation before a run makes it one invocation longer. -/
theorem stops_after {budget steps : Nat} {result : Propagation} (first : Step constraints watchers s t)
    (later : ∃ k u, Takes constraints watchers k t u ∧ result.steps = steps + 1 + k ∧
      StopsAt constraints watchers budget k u result) :
    ∃ k u, Takes constraints watchers k s u ∧ result.steps = steps + k ∧
      StopsAt constraints watchers (budget + 1) k u result := by
  obtain ⟨k, u, takes, counted, ended⟩ := later
  exact ⟨k + 1, u, .step first takes, counted.trans (by omega), ended.succ⟩

theorem run_takes (budget steps : Nat) (replies : Array (String × List Reply)) :
    let result := run constraints watchers budget queue steps replies vars
    ∃ k t, Takes constraints watchers k (queue, vars) t ∧ result.steps = steps + k ∧
      StopsAt constraints watchers budget k t result := by
  induction budget generalizing queue steps replies vars with
  | zero =>
      cases queue with
      | nil => exact ⟨0, _, .none _, rfl, le_rfl, rfl, rfl⟩
      | cons position rest => exact ⟨0, _, .none _, rfl, rfl, List.cons_ne_nil position rest, rfl⟩
  | succ budget ih =>
      cases queue with
      | nil => exact ⟨0, _, .none _, rfl, Nat.zero_le _, rfl, rfl⟩
      | cons position rest =>
          have stops {failure : Failure} {last : Variables}
              (breaks : Breaks constraints watchers position rest vars failure last) :
              0 < budget + 1 ∧ ∃ others, position :: rest = position :: others ∧
                Breaks constraints watchers position others vars failure last :=
            ⟨Nat.succ_pos budget, rest, rfl, breaks⟩
          rw [run]
          cases found : constraints[position]? with
          | none => exact ⟨0, _, .none _, rfl, stops (.missing found)⟩
          | some c =>
              dsimp only
              cases outcome : (c.invoke vars).2 with
              | error failure after => exact ⟨0, _, .none _, rfl, stops (.failed found outcome)⟩
              | ok _ after =>
                  dsimp only
                  cases woke : wake constraints.size watchers after.changed.toList rest with
                  | error fault => exact ⟨0, _, .none _, rfl, stops (.unwatched found outcome woke)⟩
                  | ok woken =>
                      have first : Step constraints watchers (position :: rest, vars) (woken, forgetChanges after) :=
                        Invokes.step ⟨found, outcome, woke⟩
                      exact stops_after first (ih _ _)

/-- A run is capped if it comes to constraints in the queue with its last invocation. -/
theorem capped_of_takes {budget : Nat} (takes : Takes constraints watchers budget (queue, vars) t) (left : t.1 ≠ [])
    (steps : Nat) (replies : Array (String × List Reply)) :
    (run constraints watchers budget queue steps replies vars).ending = .capped := by
  induction budget generalizing queue steps replies vars with
  | zero =>
      cases takes
      cases queue with
      | nil => exact absurd rfl left
      | cons position rest => rfl
  | succ budget ih =>
      cases takes with
      | step first rest =>
          obtain ⟨position, later, c, after, same, invokes, next⟩ := first
          obtain rfl : queue = position :: later := same
          have ran : (c.invoke vars).2 = .ok () after := invokes.ran
          rw [run, invokes.found]
          dsimp only
          rw [ran]
          dsimp only
          rw [invokes.woke]
          exact ih (next ▸ rest) _ _

/-- The number of invocations, with the one that failed. -/
def invocations (p : Propagation) : Nat :=
  match p.ending with
  | .failed _ _ => p.steps + 1
  | _ => p.steps

theorem StopsAt.invocations_le {budget k : Nat} {result : Propagation}
    (stops : StopsAt constraints watchers budget k s result) (counted : result.steps = k) :
    result.invocations ≤ k + s.1.length ∧ result.invocations ≤ budget := by
  subst counted
  unfold StopsAt at stops
  unfold invocations
  cases ended : result.ending with
  | settled =>
      rw [ended] at stops
      exact ⟨Nat.le_add_right _ _, stops.1⟩
  | capped =>
      rw [ended] at stops
      exact ⟨Nat.le_add_right _ _, stops.1.le⟩
  | failed position failure =>
      -- The constraint that goes wrong was the first one in the queue.
      rw [ended] at stops
      obtain ⟨within, rest, queue, -⟩ := stops
      rw [queue, List.length_cons]
      exact ⟨by dsimp only; omega, within⟩

/-- What each of the next invocations makes of what the one before has left. -/
theorem Takes.climb {level : Nat → Variables → Prop} {k m : Nat} (takes : Takes constraints watchers k s t) {j : Nat}
    (each : ∀ i < m, ∀ c ∈ constraints, ∀ before, level i before →
      Ensures c.propagate before (fun _ after => level (i + 1) (forgetChanges after)) fun _ _ => True)
    (enough : j + k ≤ m) (start : level j s.2) : level (j + k) t.2 := by
  induction takes generalizing j with
  | none s => exact start
  | step first rest ih =>
      obtain ⟨position, later, c, after, -, invokes, next⟩ := first
      have climbed := each j (by omega) c (Array.mem_of_getElem? invokes.found) _ start
      rw [Ensures, invokes.ran] at climbed
      have above := ih (j := j + 1) (by omega) (next ▸ climbed)
      rwa [Nat.add_right_comm] at above

end Propagation

/-! ## Stores -/

namespace Store

/-- One invocation for each constraint, and one more for each value that a variable can lose before its last one and
    each constraint that watches the variable. -/
def invocationBound (store : Store) : Nat :=
  store.constraints.size + ∑ i ∈ Finset.range store.vars.size,
    (store.vars.valueCount ⟨i⟩ - 1) * Propagation.watcherCount store.watchers ⟨i⟩

/-- The queue and the variables that a propagation comes to with a number of invocations that succeed. -/
def Takes (store : Store) (k : Nat) (queue : List Nat) (vars : Variables) : Prop :=
  Propagation.Takes store.constraints store.watchers k
    (List.range store.constraints.size, Propagation.forgetChanges store.vars) (queue, vars)

theorem Takes.le_invocationBound {store : Store} {k : Nat} {queue : List Nat} {vars : Variables}
    (takes : store.Takes k queue vars) (finite : store.vars.Finite) (removes : ∀ c ∈ store.constraints, c.Removes) :
    k + queue.length ≤ store.invocationBound := by
  have bounded := Propagation.Takes.pending_le takes removes ⟨finite, rfl⟩
  have start : Propagation.pending store.watchers
      (List.range store.constraints.size, Propagation.forgetChanges store.vars) = store.invocationBound :=
    congrArg (· + _) List.length_range
  rw [start, Propagation.pending] at bounded
  exact (Nat.le_add_right _ _).trans ((Nat.add_assoc _ _ _).le.trans bounded)

/-- If all variables are integers and filters remove a value when they refuse one, a propagation invokes each constraint
    once, and for each value that a variable loses the constraints that watch it at most, so that it ends with an empty
    queue or with a failure if its steps are enough for that. Whatever filters do, it is capped exactly if as many
    invocations as it has steps succeed and leave constraints in the queue. -/
theorem propagation_invocations_le (store : Store) (finite : store.vars.Finite) :
    let p := store.propagation
    let steps := store.config.effectiveMaxSteps
    (∃ queue vars, store.Takes p.steps queue vars ∧
      ∀ position failure, p.ending = .failed position failure → ∃ rest, queue = position :: rest ∧
        Breaks store.constraints store.watchers position rest vars failure p.vars) ∧
    ((∀ c ∈ store.constraints, c.Removes) →
      p.invocations ≤ store.invocationBound ∧ (store.invocationBound ≤ steps → p.ending ≠ .capped)) ∧
    p.invocations ≤ steps ∧ (p.ending = .capped ↔ ∃ queue vars, store.Takes steps queue vars ∧ queue ≠ []) := by
  intro p steps
  obtain ⟨k, ⟨queue, vars⟩, takes, counted, stops⟩ := @Propagation.run_takes store.constraints store.watchers
    (List.range store.constraints.size) (Propagation.forgetChanges store.vars) steps 0 #[]
  change p.steps = 0 + k at counted
  change Propagation.StopsAt _ _ steps k (queue, vars) p at stops
  obtain rfl : p.steps = k := by omega
  have cap : p.ending = .capped ↔ ∃ queue vars, store.Takes steps queue vars ∧ queue ≠ [] := by
    constructor
    · intro ended
      rw [Propagation.StopsAt, ended] at stops
      exact ⟨queue, vars, stops.1 ▸ takes, stops.2.1⟩
    · rintro ⟨queue, vars, takes, left⟩
      exact Propagation.capped_of_takes takes left 0 #[]
  -- If the steps are enough, nothing waits after the last of them.
  have enough (removes : ∀ c ∈ store.constraints, c.Removes) (large : store.invocationBound ≤ steps) :
      p.ending ≠ .capped := by
    rw [Ne, cap]
    rintro ⟨queue, vars, takes, left⟩
    have bounded := takes.le_invocationBound finite removes
    have waiting := List.length_pos_iff.2 left
    omega
  obtain ⟨waited, within⟩ := stops.invocations_le rfl
  have bounded (removes : ∀ c ∈ store.constraints, c.Removes) : p.invocations ≤ store.invocationBound :=
    waited.trans (Takes.le_invocationBound takes finite removes)
  refine ⟨⟨queue, vars, takes, fun position failure ended => ?_⟩,
    fun removes => ⟨bounded removes, enough removes⟩, within, cap⟩
  rw [Propagation.StopsAt, ended] at stops
  exact stops.2

end Store

/-- A user-defined constraint that removes the greatest value of the first variable, unless it is the last one. -/
def Constraint.lower : Constraint :=
  .custom {
    label := "lower"
    scope := [⟨0⟩]
    plan := fun vars => match vars[0]?.map Variable.domain with
      | some (.finite s) => [.retain ⟨0⟩ fun n => s.min? == some n || s.max? != some n]
      | _ => [] }

theorem Constraint.removes_lower : Constraint.lower.Removes := by
  intro vars act planned
  dsimp only [Constraint.lower] at planned
  split at planned
  · obtain rfl := List.mem_singleton.1 planned
    exact IntSet.removes_of_memoryless _
  · exact absurd planned List.not_mem_nil

/-- A constraint that wakes itself with every value that it removes needs all of the invocations. -/
theorem Store.propagation_invocations_le_attained :
    let store := (fresh.extended "x" (.finite (.range 1 3))).posting .lower
    store.vars.Finite ∧ (∀ c ∈ store.constraints, c.Removes) ∧ store.invocationBound = 3 ∧
      store.propagation.invocations = 3 ∧ store.propagation.invocations ≤ store.invocationBound ∧
      store.propagation.ending ≠ .capped := by
  intro store
  have finite : store.vars.Finite := by
    unfold Variables.Finite
    decide
  have removes (c : Constraint) (posted : c ∈ store.constraints) : c.Removes := by
    obtain rfl : c = .lower := by simpa [store, Store.posting, Store.extended, fresh] using posted
    exact Constraint.removes_lower
  have bound : store.invocationBound = 3 := by decide +kernel
  obtain ⟨-, bounded, -, -⟩ := store.propagation_invocations_le finite
  obtain ⟨within, uncapped⟩ := bounded removes
  exact ⟨finite, removes, bound, by decide +kernel, within, uncapped (bound ▸ by decide)⟩

/-- A user-defined constraint with a filter that refuses the first value that it is asked about, and no other one. -/
def Constraint.fickle : Constraint :=
  .custom { label := "fickle", scope := [⟨0⟩], plan := fun _ => [.sift ⟨0⟩ fun asked _ => !asked.isEmpty] }

/-- What is refused passes when it is asked about again, so that the constraint removes nothing, and yet wakes itself
    with every invocation. It uses up all steps, although there are more than the bound. -/
theorem Store.propagation_exceeds_invocationBound :
    let store := ({ fresh with config := { maxSteps := some 3 } }.extended "x" (.finite (.range 0 1))).posting .fickle
    store.vars.Finite ∧ store.invocationBound = 2 ∧ store.config.effectiveMaxSteps = 3 ∧
      store.propagation.invocations = 3 ∧ store.propagation.ending = .capped ∧
      store.propagation.vars.arena = store.vars.arena := by
  intro store
  have finite : store.vars.Finite := by
    unfold Variables.Finite
    decide
  exact ⟨finite, by decide +kernel, rfl, by decide +kernel, by decide +kernel, by decide +kernel⟩

end StatBounds
