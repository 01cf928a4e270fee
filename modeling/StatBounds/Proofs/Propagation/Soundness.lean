import StatBounds.Proofs.Propagation.Counts
import StatBounds.Proofs.Propagation.Primitives
import StatBounds.Proofs.Propagation.Runs

/-! # Propagation keeps every solution

Whatever order the queue takes the constraints in, each invocation keeps the assignments for which its
constraint holds. So a whole run keeps the assignments for which all of them hold, however it ends, and
reports that there is no solution only if there is none.
-/

namespace StatBounds

open Binary64 (value)

/-! ## What constraints mean -/

namespace Constraint

/-- Whether a constraint is given its meaning from outside: the store knows neither what a user-defined
    one nor what a formula means. -/
def IsOpen : Constraint → Prop
  | formula _ | custom _ => True
  | _ => False

/-- The meaning of a constraint, for given meanings of the open ones. -/
def Holds (meaning : Constraint → Assignment → Prop) (σ : Assignment) : Constraint → Prop
  | sum c => c.Holds σ
  | reified c => c.Holds σ
  | binCount c => c.Holds σ
  | c => meaning c σ

/-- What is checked of a constraint when it is posted, for the variables of the store: an indicator has
    only truth values, counts are integers. There are never as many as `2 ^ 63` items. -/
def Posted (vars : Variables) : Constraint → Prop
  | reified c => ∃ x, vars.get? c.indicator = some x ∧ Store.isBoolean x.domain = true
  | binCount c => c.items.length < 2 ^ 63 ∧
      ∀ v ∈ c.counts, ∃ x, vars.get? v = some x ∧ x.domain.isFinite = true
  | _ => True

end Constraint

/-- An assignment that the variables admit and all constraints hold for. -/
structure Store.Solution (meaning : Constraint → Assignment → Prop) (store : Store) (σ : Assignment) :
    Prop where
  admits : store.vars.Admits σ
  holds : ∀ c ∈ store.constraints, c.Holds meaning σ

variable {σ : Assignment} {meaning : Constraint → Assignment → Prop}

theorem decides_of_isBoolean {d : Domain} {v : Var} (boolean : Store.isBoolean d = true)
    (admits : d.Admits (σ v)) : σ.Decides v := by
  unfold Assignment.Decides
  cases d with
  | real r => simp [Store.isBoolean] at boolean
  | finite s =>
      obtain ⟨n, choice, member⟩ := admits.exists_int
      have truth : n.toInt = 0 ∨ n.toInt = 1 := by
        simpa using List.all_eq_true.1 boolean _ member
      have reading := Choice.reading_int (n := n) (by rcases truth with same | same <;> simp [same])
      rcases truth with same | same <;> simp [choice, reading, same]

theorem counted_of_isFinite {d : Domain} {v : Var} (finite : d.isFinite = true) (admits : d.Admits (σ v)) :
    ∃ n, σ v = .int n := by
  cases d with
  | real _ => simp [Domain.isFinite] at finite
  | finite s =>
      obtain ⟨n, choice, -⟩ := admits.exists_int
      exact ⟨n, choice⟩

theorem Custom.keeps {c : Custom} (each : ∀ vars : Variables, vars.Admits σ →
    ∀ act ∈ c.plan vars.arena, Keeps σ act.run fun _ => True) :
    Keeps σ (Constraint.custom c).propagate fun _ => True := by
  have all (acts : List Act) (keeps : ∀ act ∈ acts, Keeps σ act.run fun _ => True) :
      Keeps σ (fun vars => (Act.runAll acts vars).2) fun _ => True := by
    induction acts with
    | nil => exact fun vars admits => ⟨admits, trivial⟩
    | cons act rest ih =>
        intro vars admits
        have first := keeps act (by simp) vars admits
        unfold Ensures at first ⊢
        simp only [Act.runAll]
        cases outcome : act.run vars with
        | error failure after =>
            rw [outcome] at first
            exact first
        | ok reply after =>
            rw [outcome] at first
            exact ih (fun act member => keeps act (by simp [member])) after first.1
  exact fun vars admits => all _ (each vars admits) vars admits

/-- One invocation of any constraint keeps the solutions. -/
theorem Constraint.keeps {c : Constraint} {vars : Variables} (posted : c.Posted vars)
    (admits : vars.Admits σ) (holds : c.Holds meaning σ)
    (sound : c.IsOpen → ∀ σ, meaning c σ → Keeps σ c.propagate fun _ => True) :
    Keeps σ c.propagate fun _ => True := by
  cases c with
  | formula c => exact sound trivial σ holds
  | custom c => exact sound trivial σ holds
  | sum c => exact Sum.keeps holds
  | reified c =>
      obtain ⟨x, found, boolean⟩ := posted
      exact Reified.keeps (decides_of_isBoolean boolean (admits _ x found)) holds
  | binCount c =>
      obtain ⟨few, counts⟩ := posted
      refine BinCount.Holds.keeps holds (fun v member => ?_) few
      obtain ⟨x, found, finite⟩ := counts v member
      exact counted_of_isFinite finite (admits v x found)

/-! ## Runs -/

namespace Propagation

theorem run_keeps {constraints : Array Constraint} {watchers : Array (List Nat)}
    (each : ∀ c ∈ constraints, Keeps σ c.propagate fun _ => True) (budget : Nat) (queue : List Nat)
    (steps : Nat) (replies : Array (String × List Reply)) {vars : Variables} (admits : vars.Admits σ) :
    let result := run constraints watchers budget queue steps replies vars
    result.vars.Admits σ ∧ ∀ failure, result.failure? = some failure → ¬ failure.Infeasible := by
  have kept (c : Constraint) (member : c ∈ constraints) (before : Variables) (admits : before.Admits σ) :=
    (each c member before admits).mono (fun _ _ both => both.1) fun _ _ fails => fails
  exact run_ensures kept (fun _ => id) (fun _ _ => id) watchers budget queue steps replies admits

end Propagation

namespace Store

/-- The store after a number of propagations. -/
def propagated (store : Store) (times : Nat) : Store :=
  afterPropagation^[times] store

theorem propagated_succ (store : Store) (times : Nat) :
    store.propagated (times + 1) = (store.propagated times).afterPropagation :=
  Function.iterate_succ_apply' ..

variable {store : Store}

/-- One propagation keeps a solution and does not claim that there is none. -/
theorem Solution.afterPropagation (solution : store.Solution meaning σ)
    (each : ∀ c ∈ store.constraints, Keeps σ c.propagate fun _ => True) :
    store.afterPropagation.Solution meaning σ ∧
      ∀ failure, store.propagation.failure? = some failure → ¬ failure.Infeasible := by
  have start : (Propagation.forgetChanges store.vars).Admits σ := solution.admits
  obtain ⟨admits, feasible⟩ := Propagation.run_keeps each store.config.effectiveMaxSteps
    (List.range store.constraints.size) 0 #[] start
  exact ⟨⟨admits, solution.holds⟩, feasible⟩

/-- Any number of propagations keeps a solution. -/
theorem Solution.propagated (solution : store.Solution meaning σ)
    (each : ∀ c ∈ store.constraints, Keeps σ c.propagate fun _ => True) (times : Nat) :
    (store.propagated times).Solution meaning σ ∧
      (store.propagated times).constraints = store.constraints := by
  induction times with
  | zero => exact ⟨solution, rfl⟩
  | succ times ih =>
      rw [Store.propagated_succ]
      obtain ⟨kept, same⟩ := ih
      exact ⟨(kept.afterPropagation (same ▸ each)).1, same⟩

/-- Propagation keeps every solution of a store, however often it is run and however it ends. If it ever
    fails because there is no solution, then there is none. Indicators have no values but 0 and 1, as is checked when a
    conjunction is posted with its own operation. The open constraints are assumed to keep the assignments that they are
    given to hold for. -/
theorem propagate_keeps_solutions (meaning : Constraint → Assignment → Prop) (store : Store)
    (posted : ∀ c ∈ store.constraints, c.Posted store.vars)
    (sound : ∀ c ∈ store.constraints, c.IsOpen → ∀ σ, meaning c σ → Keeps σ c.propagate fun _ => True) :
    (∀ σ, store.Solution meaning σ → ∀ times, (store.propagated times).Solution meaning σ) ∧
      ∀ times failure after, propagate (store.propagated times) = .error failure after →
        failure.Infeasible → ¬ ∃ σ, store.Solution meaning σ := by
  have each (σ : Assignment) (solution : store.Solution meaning σ) :
      ∀ c ∈ store.constraints, Keeps σ c.propagate fun _ => True := fun c member =>
    c.keeps (posted c member) solution.admits (solution.holds c member) (sound c member)
  refine ⟨fun σ solution times => (solution.propagated (each σ solution) times).1, ?_⟩
  rintro times failure after fails infeasible ⟨σ, solution⟩
  obtain ⟨kept, same⟩ := solution.propagated (each σ solution) times
  have feasible := (kept.afterPropagation (same ▸ each σ solution)).2
  rw [propagate_eq] at fails
  cases found : (store.propagated times).propagation.failure? with
  | none => simp [found] at fails
  | some other =>
      rw [found] at fails
      obtain ⟨rfl, -⟩ : other = failure ∧ _ := by simpa using fails
      exact feasible _ found infeasible

/-- A sum, a conjunction, a bin count and a user-defined constraint with a common solution. -/
theorem propagate_keeps_solutions_four_constraints :
    let store : Store := {
      vars := {
        arena := #[{ name := "b", domain := .finite ⟨[0, 1], by decide⟩ },
          { name := "x", domain := .real { interval := ⟨0.0, 9.0⟩, precision := 0.5 } },
          { name := "y", domain := .finite ⟨[1, 2, 3], by decide⟩ }]
        names := ∅, ratio := 0.0, changed := #[], trail := [], depth := 0 }
      constraints := #[.sum { terms := [⟨1⟩], total := ⟨2⟩ },
        .reified { indicator := ⟨0⟩, atoms := [.within ⟨1⟩ 0.0 2.0] },
        .binCount { filter := ⟨[⟨1.0, 3.0⟩]⟩, items := [⟨2⟩], counts := [⟨0⟩] },
        .custom { label := "cap", scope := [⟨1⟩], plan := fun _ => [.narrow ⟨1⟩ ⟨0.0, 2.0⟩] }]
      watchers := #[[1, 2], [0, 1, 3], [0, 2]], config := {}, posted := #[] }
    ∃ σ : Assignment, ∀ times, (store.propagated times).vars.Admits σ := by
  intro store
  have one : (Choice.int 1).reading = 1 := by
    rw [Choice.reading_int (by decide)]
    exact Int.cast_one
  have order : (1 : EReal) < value 2.0 ∧ (1 : EReal) < value 3.0 ∧ (1 : EReal) < value 9.0 := by
    rw [← Binary64.value_one]
    exact ⟨(Binary64.lt_iff.1 (by decide)).2.2, (Binary64.lt_iff.1 (by decide)).2.2,
      (Binary64.lt_iff.1 (by decide)).2.2⟩
  let σ : Assignment := fun v => if v.index = 1 then .real 1 else .int 1
  have reading (v : Var) : (σ v).reading = 1 := by
    simp only [σ]
    split_ifs
    · rfl
    · exact one
  let meaning (_ : Constraint) (σ : Assignment) : Prop :=
    (⟨0.0, 2.0⟩ : Interval).Encloses (σ ⟨1⟩).reading
  have posted : ∀ c ∈ store.constraints, c.Posted store.vars := by
    intro c member
    simp only [store, List.mem_toArray, List.mem_cons, List.not_mem_nil, or_false] at member
    rcases member with rfl | rfl | rfl | rfl
    · trivial
    · exact ⟨_, rfl, rfl⟩
    · refine ⟨by decide, fun v member => ?_⟩
      obtain rfl := List.mem_singleton.1 member
      exact ⟨_, rfl, rfl⟩
    · trivial
  have sound : ∀ c ∈ store.constraints, c.IsOpen → ∀ σ, meaning c σ → Keeps σ c.propagate fun _ => True := by
    intro c member isOpen σ holds
    simp only [store, List.mem_toArray, List.mem_cons, List.not_mem_nil, or_false] at member
    rcases member with rfl | rfl | rfl | rfl
    · exact isOpen.elim
    · exact isOpen.elim
    · exact isOpen.elim
    · refine Custom.keeps fun vars _ act member => ?_
      obtain rfl := List.mem_singleton.1 member
      exact (keeps_narrow holds).bind fun _ _ => Keeps.pure trivial
  have solution : store.Solution meaning σ := by
    have zeroLe : (value 0.0 : EReal) ≤ (1 : ℝ) := by
      rw [Binary64.value_zero]
      exact_mod_cast zero_le_one
    refine ⟨fun v x found => ?_, fun c member => ?_⟩
    · obtain ⟨position⟩ := v
      match position with
      | 0 =>
          obtain rfl := Option.some.inj found
          exact (by decide : (1 : Int64).toInt ∈ [0, 1])
      | 2 =>
          obtain rfl := Option.some.inj found
          exact (by decide : (1 : Int64).toInt ∈ [1, 2, 3])
      | 1 =>
          obtain rfl := Option.some.inj found
          exact ⟨⟨by rfl, by rfl⟩, zeroLe, order.2.2.le⟩
      | _ + 3 => exact absurd found (by simp [store, Variables.get?])
    · simp only [store, List.mem_toArray, List.mem_cons, List.not_mem_nil, or_false] at member
      rcases member with rfl | rfl | rfl | rfl
      · simp [Constraint.Holds, Sum.Holds, reading]
      · refine iff_of_true (reading _) fun a member => ?_
        obtain rfl := List.mem_singleton.1 member
        rw [reading]
        exact ⟨⟨by rfl, zeroLe⟩, by rfl, order.1⟩
      · have inBin : BinCount.InBin { filter := ⟨[⟨1.0, 3.0⟩]⟩, items := [⟨2⟩], counts := [⟨0⟩] }
            σ 0 ⟨2⟩ := by
          refine ⟨_, rfl, by rfl, by rfl, ?_, ?_⟩
          · rw [reading, Binary64.value_one]
            rfl
          · rw [reading]
            exact order.2.1
        refine ⟨fun v member => ⟨0, ?_, fun b other => ?_⟩, fun b v found => ?_⟩
        · obtain rfl := List.mem_singleton.1 member
          exact inBin
        · obtain ⟨bin, found, -⟩ := other
          simpa using (List.getElem?_eq_some_iff.1 found).1
        · have first : b = 0 := by simpa using (List.getElem?_eq_some_iff.1 found).1
          subst first
          simp [reading, inBin]
      · change (⟨0.0, 2.0⟩ : Interval).Encloses (σ ⟨1⟩).reading
        rw [reading]
        exact ⟨⟨by rfl, by rfl⟩, zeroLe, order.1.le⟩
  exact ⟨σ, fun times => ((propagate_keeps_solutions meaning store posted sound).1 σ solution times).admits⟩

/-- A conjunction that is posted without that check may have an indicator with another value. That value is not 1, so it
    agrees with a conjunction that fails, but it is taken away. -/
theorem propagate_loses_solution_of_wide_indicator :
    let store : Store := {
      vars := {
        arena := #[{ name := "x", domain := .finite ⟨[5], by decide⟩ },
          { name := "i", domain := .finite ⟨[0, 1, 2], by decide⟩ }]
        names := ∅, ratio := 0.0, changed := #[], trail := [], depth := 0 }
      constraints := #[.reified { indicator := ⟨1⟩, atoms := [.below ⟨0⟩ 3.0] }]
      watchers := #[[0], [0]], config := {}, posted := #[] }
    ∃ σ : Assignment, (∀ meaning, store.Solution meaning σ) ∧ ¬ (store.propagated 1).vars.Admits σ := by
  intro store
  let σ : Assignment := fun v => if v.index = 0 then .int 5 else .int 2
  have readingX : (σ ⟨0⟩).reading = 5 := by
    rw [show σ ⟨0⟩ = .int 5 from rfl, Choice.reading_int (by decide)]
    exact_mod_cast rfl
  have readingI : (σ ⟨1⟩).reading = 2 := by
    rw [show σ ⟨1⟩ = .int 2 from rfl, Choice.reading_int (by decide)]
    exact_mod_cast rfl
  refine ⟨σ, fun meaning => ⟨fun v x found => ?_, fun c member => ?_⟩, fun admits => ?_⟩
  · obtain ⟨position⟩ := v
    match position with
    | 0 =>
        obtain rfl := Option.some.inj found
        exact (by decide : (5 : Int64).toInt ∈ [5])
    | 1 =>
        obtain rfl := Option.some.inj found
        exact (by decide : (2 : Int64).toInt ∈ [0, 1, 2])
    | _ + 2 => exact absurd found (by simp [store, Variables.get?])
  · simp only [store, List.mem_toArray, List.mem_cons, List.not_mem_nil, or_false] at member
    subst member
    -- Neither is the indicator 1, nor does the test hold.
    refine iff_of_false (by rw [readingI]; norm_num) fun all => ?_
    have below : ((σ ⟨0⟩).reading : EReal) < value 3.0 := (all (.below ⟨0⟩ 3.0) (by simp)).2
    have order : value 3.0 < value 5.0 := (Binary64.lt_iff.1 (by decide)).2.2
    have five : value 5.0 = ((σ ⟨0⟩).reading : EReal) := by
      have same : (5.0 : Float) = Binary64.ofInt 5 := by rfl
      rw [readingX, same, Binary64.value_ofInt_exact (by decide)]
      norm_num
    rw [five] at order
    exact absurd below order.asymm
  · have left : (store.propagated 1).vars.get? ⟨1⟩ = some { name := "i", domain := .finite ⟨[0], by decide⟩ } := by
      decide +kernel
    have kept : (Domain.finite ⟨[0], by decide⟩).Admits (.int 2) := admits ⟨1⟩ _ left
    have lost : (2 : Int64).toInt ∉ ([0] : List Int) := by decide
    exact lost kept

end Store

end StatBounds
