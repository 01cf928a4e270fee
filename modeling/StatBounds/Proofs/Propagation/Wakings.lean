import StatBounds.Proofs.Propagation.FixedPoint
import StatBounds.Proofs.Store.Significance

/-! # Large narrowings wake the watchers

A constraint that halves a real variable in the course of an invocation has the variable on record when the invocation
ends, whatever it does afterwards. So everything that watches the variable is in the queue then, and a propagation only
ends with an empty queue after it has been invoked again.
-/

namespace StatBounds

open Variables (Narrowed)

/-! ## Calls -/

/-- Starting from some variables, an operation that is made of narrowing steps comes to narrow a variable at a later
    state of them. -/
inductive Calls (v : Var) (onto : Interval) : {α : Type} → NarrowM α → Variables → Variables → Prop
  | here (vars : Variables) : Calls v onto (Variables.narrow v onto) vars vars
  | first {α β : Type} {head : NarrowM α} {rest : α → NarrowM β} {start middle : Variables}
      (calls : Calls v onto head start middle) (tail : ∀ a, Narrowing (fun _ => True) (rest a)) :
      Calls v onto (head >>= rest) start middle
  | later {α β : Type} {head : NarrowM α} {rest : α → NarrowM β} {start between middle : Variables} {a : α}
      (narrowing : Narrowing (fun _ => True) head) (ran : head start = .ok a between)
      (calls : Calls v onto (rest a) between middle) : Calls v onto (head >>= rest) start middle
  | read {α : Type} {next : Variables → NarrowM α} {start middle : Variables}
      (calls : Calls v onto (next start) start middle) : Calls v onto (get >>= next) start middle
  | attempt {act : Act} {start middle : Variables} (calls : Calls v onto act.run start middle) :
      Calls v onto (Act.attempt act).run start middle

section

variable {α : Type} {operation : NarrowM α} {v : Var} {onto : Interval} {vars start middle next : Variables}

/-- Up to the call there is nothing but narrowing. -/
theorem Calls.narrowed (calls : Calls v onto operation start middle) (sound : start.Sound) :
    Narrowed start middle ∧ start.Shrunk middle := by
  induction calls with
  | here vars => exact ⟨.refl vars, .refl sound⟩
  | first _ _ ih => exact ih sound
  | @later _ _ head _ start _ _ _ narrowing ran _ ih =>
      have step := (narrowing.narrowsWithin start).and (narrowing.shrunk start sound)
      rw [Ensures, ran] at step
      obtain ⟨narrowed, shrunk⟩ := ih (step.1.sound sound)
      exact ⟨step.1.trans narrowed, step.2.trans shrunk⟩
  | read _ ih => exact ih sound
  | attempt _ ih => exact ih sound

/-- After the call there is nothing but narrowing either. -/
theorem Calls.ensures (calls : Calls v onto operation start middle) {changed : Bool}
    (ran : Variables.narrow v onto middle = .ok changed next) :
    Ensures operation start (fun _ after => Narrowed next after) fun _ after => Narrowed next after := by
  induction calls with
  | here vars =>
      rw [Ensures, ran]
      exact .refl next
  | first _ tail ih =>
      refine ensures_bind.2 ((ih ran).mono (fun a between kept => ?_) fun _ _ => id)
      exact ((tail a).narrowsWithin between).mono (fun _ _ => kept.trans) fun _ _ narrowed => kept.trans narrowed.1
  | later _ before _ ih =>
      rw [ensures_bind, Ensures, before]
      exact ih ran
  | read _ ih => exact ih ran
  | @attempt act start _ _ ih =>
      have inner := ih ran
      unfold Ensures at inner ⊢
      simp only [Act.run]
      cases outcome : act.run start with
      | ok reply after =>
          rw [outcome] at inner
          exact inner
      | error failure after =>
          rw [outcome] at inner
          cases failure <;> exact inner

theorem Calls.records (calls : Calls v onto operation start middle) (halved : middle.HalvedBy v onto)
    (precise : middle.Precise) (quarter : middle.ratio ≤ 0.25) (finite : (middle.bounds v).width.isInf = false) :
    Ensures operation start (fun _ after => v ∈ after.changed) fun _ after => v ∈ after.changed := by
  obtain ⟨next, ran, recorded⟩ := halved.narrow precise quarter
  rw [finite, if_neg Bool.false_ne_true] at recorded
  have stays (after : Variables) (narrowed : Narrowed next after) : v ∈ after.changed := by
    obtain ⟨more, changed, -⟩ := narrowed.changed
    rw [← Array.mem_toList_iff, changed, recorded]
    simp
  exact (calls.ensures ran).mono (fun _ => stays) fun _ => stays

end

/-! ## Steps of a propagation -/

namespace Propagation

variable {constraints : Array Constraint} {watchers : Array (List Nat)} {s t u : List Nat × Variables}

/-- One invocation leads from a queue and variables to the next ones. -/
def Step (constraints : Array Constraint) (watchers : Array (List Nat)) (s t : List Nat × Variables) : Prop :=
  ∃ position rest c after, s.1 = position :: rest ∧ Invokes constraints watchers position rest s.2 t.1 c after ∧
    t.2 = forgetChanges after

/-- Some invocations do. -/
def Leads (constraints : Array Constraint) (watchers : Array (List Nat)) :
    List Nat × Variables → List Nat × Variables → Prop :=
  Relation.ReflTransGen (Step constraints watchers)

theorem Invokes.step {position : Nat} {rest woken : List Nat} {before after : Variables} {c : Constraint}
    (invokes : Invokes constraints watchers position rest before woken c after) :
    Step constraints watchers (position :: rest, before) (woken, forgetChanges after) :=
  ⟨position, rest, c, after, rfl, invokes, rfl⟩

theorem Step.unique (first : Step constraints watchers s t) (second : Step constraints watchers s u) : t = u := by
  obtain ⟨position, rest, c, after, queue, invokes, vars⟩ := first
  obtain ⟨position', rest', c', after', queue', invokes', vars'⟩ := second
  obtain ⟨rfl, rfl⟩ := List.cons.inj (queue.symm.trans queue')
  obtain rfl := Option.some.inj (invokes.found.symm.trans invokes'.found)
  have same := invokes.ran.symm.trans invokes'.ran
  obtain rfl : after = after' := by
    injection same
  exact Prod.ext (Except.ok.inj (invokes.woke.symm.trans invokes'.woke)) (vars.trans vars'.symm)

/-- A run that ends with an empty queue is led there. -/
theorem leads_of_settled {budget steps : Nat} {queue : List Nat} {replies : Array (String × List Reply)}
    {vars : Variables} (ended : (run constraints watchers budget queue steps replies vars).ending = .settled) :
    ∃ last, Leads constraints watchers (queue, vars) ([], last) := by
  let led (later : List Nat) (last : Variables) : Prop := Leads constraints watchers (queue, vars) (later, last)
  have result := @run_induction constraints watchers (fun _ => led) budget queue vars steps replies
    (fun _ _ _ _ _ _ _ leads invokes => Relation.ReflTransGen.tail leads invokes.step) .refl
  simp only [ended] at result
  obtain ⟨-, leads⟩ := result
  exact ⟨_, leads⟩

/-- What is in the queue is invoked before the queue is empty. -/
theorem Leads.invokes {p : Nat} (leads : Leads constraints watchers s t) (ended : t.1 = []) (queued : p ∈ s.1) :
    ∃ rest before woken d after, Leads constraints watchers s (p :: rest, before) ∧
      Invokes constraints watchers p rest before woken d after := by
  induction leads using Relation.ReflTransGen.head_induction_on with
  | refl =>
      rw [ended] at queued
      cases queued
  | @head s next step leads ih =>
      obtain ⟨position, rest, c, after, queue, invokes, vars⟩ := step
      rw [queue] at queued
      rcases List.mem_cons.1 queued with rfl | waiting
      · refine ⟨rest, s.2, next.1, c, after, ?_, invokes⟩
        rw [← queue]
        exact .refl
      · obtain ⟨rest', before, woken, d, after', between, found⟩ := ih ((wake_extends invokes.woke).1.subset waiting)
        exact ⟨rest', before, woken, d, after',
          .head ⟨position, rest, c, after, queue, invokes, vars⟩ between, found⟩

end Propagation

/-! ## Stores -/

namespace Store

variable {store : Store} {queue : List Nat} {vars : Variables}

/-- A propagation comes to a queue and to variables, if its steps suffice. -/
def Visits (store : Store) (queue : List Nat) (vars : Variables) : Prop :=
  Propagation.Leads store.constraints store.watchers
    (List.range store.constraints.size, Propagation.forgetChanges store.vars) (queue, vars)

/-- Whatever a propagation comes to has been narrowed from the variables of the store, and nothing is on record. -/
theorem Visits.narrowed (visits : store.Visits queue vars) (sound : store.vars.Sound) :
    let start := Propagation.forgetChanges store.vars
    vars.changed = #[] ∧ start.Narrowed vars ∧ start.Shrunk vars := by
  intro start
  have sound : start.Sound := sound
  have kept (state : List Nat × Variables)
      (leads : Propagation.Leads store.constraints store.watchers (List.range store.constraints.size, start) state) :
      state.2.changed = #[] ∧ start.Narrowed state.2 ∧ start.Shrunk state.2 := by
    induction leads with
    | refl => exact ⟨rfl, .refl start, .refl sound⟩
    | tail _ step ih =>
        obtain ⟨clear, narrowed, shrunk⟩ := ih
        obtain ⟨position, rest, c, after, -, invokes, next⟩ := step
        have narrowing := Narrowing.constraint c
        have invoked := (narrowing.narrowsWithin _).and (narrowing.shrunk _ (narrowed.sound sound))
        rw [Ensures, invokes.ran] at invoked
        rw [next]
        exact ⟨rfl, narrowed.trans (Propagation.narrowed_forgetChanges clear invoked.1), shrunk.trans invoked.2⟩
  exact kept (queue, vars) visits

/-- What waits in the queue of a propagation that ends with an empty queue is invoked before. -/
theorem Visits.invokes (visits : store.Visits queue vars) (ended : store.propagation.ending = .settled) {p : Nat}
    (queued : p ∈ queue) : ∃ rest before woken d after,
      Propagation.Leads store.constraints store.watchers (queue, vars) (p :: rest, before) ∧
      Propagation.Invokes store.constraints store.watchers p rest before woken d after := by
  obtain ⟨last, leads⟩ := Propagation.leads_of_settled ended
  have unique : Relator.RightUnique (Propagation.Step store.constraints store.watchers) :=
    fun _ _ _ => Propagation.Step.unique
  rcases Relation.ReflTransGen.total_of_right_unique unique visits leads with ahead | behind
  · exact Propagation.Leads.invokes ahead rfl queued
  · -- Nothing follows an empty queue.
    rcases Relation.ReflTransGen.cases_head behind with same | ⟨next, ⟨position, rest, c, after, empty, -⟩, -⟩
    · obtain ⟨rfl, -⟩ := Prod.mk.inj same
      cases queued
    · cases empty

end Store

open Propagation (Invokes Leads)

/-! ## The theorem -/

/-- Every real variable that is halved is put on record, unless its width is computed as infinite. If a constraint does
    so in a propagation, then all constraints that watch the variable are queued after it, and a propagation that ends
    with an empty queue has invoked them again. -/
theorem Reachable.large_narrowings_wake {batches : List Store} {store : Store} (reachable : Reachable batches store)
    (quarter : store.vars.ratio ≤ 0.25) :
    (∀ v onto, store.vars.HalvedBy v onto → ∃ after, Variables.narrow v onto store.vars = .ok true after ∧
      after.changed = if (store.vars.bounds v).width.isInf then store.vars.changed else store.vars.changed.push v) ∧
    ∀ position rest before woken c after, store.Visits (position :: rest) before →
      Invokes store.constraints store.watchers position rest before woken c after →
      ∀ v onto middle, Calls v onto c.propagate before middle → middle.HalvedBy v onto →
        (∃ next, Variables.narrow v onto middle = .ok true next ∧
          next.changed = if (middle.bounds v).width.isInf then middle.changed else middle.changed.push v) ∧
        ((middle.bounds v).width.isInf = false → v ∈ after.changed ∧
          ∀ p d, store.constraints[p]? = some d → v ∈ d.scope → p ∈ woken ∧
            (store.propagation.ending = .settled → ∃ rest' before' woken' after',
              Leads store.constraints store.watchers (woken, Propagation.forgetChanges after) (p :: rest', before') ∧
              Invokes store.constraints store.watchers p rest' before' woken' d after')) := by
  have consistent := reachable.invariant.1
  have precise := reachable.precise.1
  refine ⟨fun v onto halved => halved.narrow precise quarter, ?_⟩
  intro position rest before woken c after visits invokes v onto middle calls halved
  obtain ⟨-, narrowed, shrunk⟩ := visits.narrowed consistent.sound
  obtain ⟨narrowed', shrunk'⟩ := calls.narrowed (narrowed.sound consistent.sound)
  have reached := narrowed.trans narrowed'
  have precise : middle.Precise := (shrunk.trans shrunk').precise reached.size (precise.of_arena rfl)
  have quarter : middle.ratio ≤ 0.25 := reached.ratio ▸ quarter
  refine ⟨halved.narrow precise quarter, fun finite => ?_⟩
  have recorded := calls.records halved precise quarter finite
  rw [Ensures, invokes.ran] at recorded
  refine ⟨recorded, fun p d found inScope => ?_⟩
  obtain ⟨list, watched, listed⟩ := consistent.watched_scope p d found v inScope
  have queued := (Propagation.wake_extends invokes.woke).2 v (Array.mem_toList_iff.2 recorded) list watched p listed
  refine ⟨queued, fun ended => ?_⟩
  obtain ⟨rest', before', woken', d', after', leads, again⟩ :=
    Store.Visits.invokes (Relation.ReflTransGen.tail visits invokes.step) ended queued
  obtain rfl := Option.some.inj (found.symm.trans again.found)
  exact ⟨rest', before', woken', after', leads, again⟩

/-! ## A cut and a link -/

/-- The interval from zero to one. -/
def Interval.unit : Interval := { lo := 0.0, hi := 1.0 }

/-- A user-defined constraint that narrows the first variable to the interval from zero to one. -/
def Constraint.cut : Constraint :=
  .custom { label := "cut", scope := [⟨0⟩], plan := fun _ => [.narrow ⟨0⟩ .unit] }

/-- The constraint that the second variable equals the first one. -/
def Constraint.link : Constraint :=
  .sum { terms := [⟨0⟩], total := ⟨1⟩ }

def Store.symmetric (bound : Float) : Store :=
  let range : Domain := .real { interval := .ofBounds (-bound) bound, precision := 0.5 }
  (fresh.extended "x" range).extended "y" range

theorem Store.reachable_symmetric {bound : Float} (number : Binary64.IsNumber bound) (ordered : ¬ bound < -bound) :
    Reachable [] (symmetric bound) := by
  have precise : checkPrecision 0.5 = .ok () := by decide +kernel
  have number' := Binary64.isNumber_neg.2 number
  refine reachable_extended_real (reachable_extended_real reachable_fresh precise number' number ordered ?_) precise
    number' number ordered ?_
  · simp [fresh, Variables.empty]
  · simp [fresh, Variables.empty, extended]

theorem Constraint.calls_cut (vars : Variables) : Calls ⟨0⟩ .unit cut.propagate vars vars := by
  have once : cut.propagate = get >>= fun _ =>
      (Variables.narrow ⟨0⟩ .unit >>= fun flag => pure (Reply.changed flag)) >>= fun _ => pure () := by
    funext vars
    simp only [Constraint.propagate, Constraint.invoke, cut, Custom.perform, Act.runAll, Act.run, Bind.bind,
      EStateM.bind, get, getThe, MonadStateOf.get, EStateM.get]
    cases Variables.narrow ⟨0⟩ .unit vars <;> rfl
  rw [once]
  exact .read (.first (.first (.here vars) fun _ => .pure _) fun _ => .pure _)

theorem Store.halvedBy_unit {bound : Float} {b : ℝ} (number : Binary64.IsNumber bound)
    (finite : Binary64.value bound = b) (large : 1 ≤ b)
    (within : (Interval.ofBounds (-bound) bound).intersect .unit = .unit) :
    (symmetric bound).vars.HalvedBy ⟨0⟩ .unit := by
  have half : Binary64.value 0.5 = ((1 / 2 : ℝ) : EReal) := by
    have unpacked : (0.5 : Float).toModel.unpack = .finite .positive (2 ^ 52) (-53) (by decide) := by rfl
    rw [Binary64.value, unpacked, Binary64.valueOf_finite_positive]
    norm_num
  refine ⟨_, _, rfl, rfl, -b, b, 0, 1, ?_, ?_, ?_, by linarith⟩
  · rw [Interval.ofBounds_of_isNumber (Binary64.isNumber_neg.2 number) number]
    exact ⟨⟨Binary64.isNumber_neg.2 number, number⟩, by rw [Binary64.value_neg, finite, EReal.coe_neg], finite,
      by linarith⟩
  · rw [within]
    exact ⟨⟨Binary64.isNumber_zero, Binary64.isNumber_one⟩, Binary64.value_zero, Binary64.value_one, zero_le_one⟩
  · rw [half, two_mul_lt_iff]
    linarith

/-- The first variable is cut, so its constraints are queued, and the one that links the second variable to it is
    invoked after that. -/
theorem large_narrowings_wake_cut : ∃ (store : Store) (woken : List Nat) (after : Variables), Reachable [] store ∧
    store.constraints = #[.cut, .link] ∧
    Invokes store.constraints store.watchers 0 [1] (Propagation.forgetChanges store.vars) woken .cut after ∧
    ⟨0⟩ ∈ after.changed ∧ 0 ∈ woken ∧ ∃ rest before woken' last,
      Leads store.constraints store.watchers (woken, Propagation.forgetChanges after) (0 :: rest, before) ∧
      Invokes store.constraints store.watchers 0 rest before woken' .cut last := by
  have number : Binary64.IsNumber 10.0 := by rfl
  have ten : Binary64.value 10.0 = ((10 : ℝ) : EReal) := Binary64.value_ofInt_exact (n := 10) (by decide)
  let store := ((Store.symmetric 10.0).posting .cut).posting .link
  have reachable : Reachable [] store :=
    .succeeded (.succeeded (Store.reachable_symmetric number (by decide +kernel)) (.post .cut) rfl) (.post .link) rfl
  have halved : store.vars.HalvedBy ⟨0⟩ .unit :=
    Store.halvedBy_unit number ten (by norm_num) (by decide +kernel)
  obtain ⟨after, ran⟩ : ∃ after, Constraint.cut.propagate (Propagation.forgetChanges store.vars) = .ok () after :=
    ⟨_, rfl⟩
  have narrowed := (Narrowing.constraint .cut).narrowsWithin (Propagation.forgetChanges store.vars)
  rw [Ensures, ran] at narrowed
  obtain ⟨added, changed, known⟩ := narrowed.changed
  have listed (v : Var) (member : v ∈ after.changed.toList) : v.index < store.watchers.size := by
    rw [changed] at member
    exact of_decide_eq_true (known v (by simpa [Propagation.forgetChanges] using member))
  have posted : ∀ list ∈ store.watchers, ∀ p ∈ list, p < 2 := by decide +kernel
  have waiting : ∀ p ∈ [1], p < 2 := by decide
  obtain ⟨woken, woke, -⟩ := Propagation.wake_eq_ok posted listed waiting
  have invokes :
      Invokes store.constraints store.watchers 0 [1] (Propagation.forgetChanges store.vars) woken .cut after :=
    ⟨rfl, ran, woke⟩
  obtain ⟨-, wakes⟩ := reachable.large_narrowings_wake (by decide +kernel)
  obtain ⟨-, wakes⟩ := wakes 0 [1] _ woken .cut after .refl invokes ⟨0⟩ .unit _ (Constraint.calls_cut _) halved
  obtain ⟨recorded, wakes⟩ := wakes (by decide +kernel)
  obtain ⟨queued, again⟩ := wakes 0 .cut rfl (by simp [Constraint.cut, Constraint.scope])
  obtain ⟨rest, before, woken', last, leads, invokes'⟩ := again (by decide +kernel)
  exact ⟨store, woken, after, reachable, rfl, invokes, recorded, queued, rest, before, woken', last, leads, invokes'⟩

/-- The width of the first variable is computed as infinite, so the cut is not on record. The second variable stays as
    it was, although it is to equal the first one, and the propagation ends with an empty queue. -/
theorem overflowing_width_wakes_nothing : ∃ (store : Store) (bound : Float), Reachable [] store ∧
    Binary64.value bound = ((2 ^ 1023 : ℝ) : EReal) ∧ store.vars.ratio ≤ 0.25 ∧ store.vars.HalvedBy ⟨0⟩ .unit ∧
    (∃ after, Variables.narrow ⟨0⟩ .unit store.vars = .ok true after ∧ after.changed = store.vars.changed) ∧
    store.constraints = #[.link, .cut] ∧ store.propagation.ending = .settled ∧ store.propagation.steps = 2 ∧
    store.propagation.vars.bounds ⟨0⟩ = .unit ∧ store.propagation.vars.bounds ⟨1⟩ = .ofBounds (-bound) bound := by
  let bound := Float.ofBits 0x7FE0000000000000
  have number : Binary64.IsNumber (Float.ofBits 0x7FE0000000000000) := by rfl
  have finite : Binary64.value bound = ((2 ^ 1023 : ℝ) : EReal) := by
    have unpacked : (Float.ofBits 0x7FE0000000000000).toModel.unpack =
        .finite .positive (2 ^ 52) 971 (by decide) := by rfl
    rw [Binary64.value, unpacked, Binary64.valueOf_finite_positive, EReal.coe_eq_coe_iff, Nat.cast_pow,
      ← zpow_natCast, ← zpow_natCast, Nat.cast_ofNat, ← zpow_add₀ (by norm_num)]
    norm_num
  let store := ((Store.symmetric bound).posting .link).posting .cut
  have reachable : Reachable [] store :=
    .succeeded (.succeeded (Store.reachable_symmetric number (by decide +kernel)) (.post .link) rfl) (.post .cut) rfl
  have halved : store.vars.HalvedBy ⟨0⟩ .unit :=
    Store.halvedBy_unit number finite (one_le_pow₀ (by norm_num)) (by decide +kernel)
  have quarter : store.vars.ratio ≤ 0.25 := by decide +kernel
  obtain ⟨after, narrowed, unrecorded⟩ := halved.narrow reachable.precise.1 quarter
  rw [if_pos (by decide +kernel)] at unrecorded
  exact ⟨store, bound, reachable, finite, quarter, halved, ⟨after, narrowed, unrecorded⟩, rfl, by decide +kernel,
    by decide +kernel, by decide +kernel, by decide +kernel⟩

end StatBounds
