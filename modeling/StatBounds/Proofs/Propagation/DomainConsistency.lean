import StatBounds.Proofs.Propagation.SettledConjunctions
import StatBounds.Proofs.Store.Filtering
import StatBounds.Proofs.Store.Posting
import StatBounds.Proofs.Store.Shrinking

/-! # Conjunctions leave no value without a solution

A conjunction of tests of different integer variables is domain consistent after a single invocation: each value that is
left belongs to a solution among the values that are left, and no solution is lost. If there is no solution, then the
invocation finds that out. The single narrowings filter the values of one variable each. So it is enough to know, for
each way to respond, that solutions pass the filters, and that what is left can be completed to a solution.
-/

namespace StatBounds

open Binary64 (ofInt)

/-! ## Sieves -/

namespace Variables

variable {before middle after vars : Variables} {v w : Var} {n : Int} {x : Variable} {s : IntSet}
  {keep keep' : Var → Int → Prop} {passes : Int → Prop}

/-- The values that are left are those that are to be kept, and each integer variable is left one. -/
structure Sieved (before : Variables) (keep : Var → Int → Prop) (after : Variables) : Prop where
  canBe : ∀ v n, after.CanBe v n ↔ before.CanBe v n ∧ keep v n
  has : ∀ v, before.HasValues v → after.HasValues v

theorem Sieved.trans (first : before.Sieved keep middle) (second : middle.Sieved keep' after) :
    before.Sieved (fun v n => keep v n ∧ keep' v n) after where
  canBe v n := by rw [second.canBe, first.canBe, and_assoc]
  has v has := second.has v (first.has v has)

theorem Sieved.refl (kept : ∀ v n, vars.CanBe v n → keep v n) : vars.Sieved keep vars where
  canBe v n := (and_iff_left_of_imp (kept v n)).symm
  has _ := id

theorem Sifted.sieved (sifted : vars.Sifted v s passes after) (found : vars.get? v = some x)
    (domain : x.domain = .finite s) (some : ∃ n ∈ s.values, passes n) :
    vars.Sieved (fun w n => w = v → passes n) after := by
  obtain ⟨kept, replaced, members⟩ := sifted.left
  have there := replaced.here
  rw [found, Option.map_some] at there
  have left (n : Int) : after.CanBe v n ↔ n ∈ s.values ∧ passes n := by rw [canBe_iff there rfl, members]
  refine ⟨fun w n => ?_, fun w has => ?_⟩
  · by_cases here : w = v
    · subst here
      simp only [left, canBe_iff found domain, true_implies]
    · simp only [CanBe, replaced.elsewhere w here, here, IsEmpty.forall_iff, and_true]
  · by_cases here : w = v
    · subst here
      obtain ⟨n, both⟩ := some
      exact ((left n).2 both).hasValues
    · rwa [HasValues, replaced.elsewhere w here]

end Variables

section

variable {α : Type} {vars : Variables} {v : Var} {x : Variable} {s : IntSet} {passes : Int → Prop}
  {inside : Var → Prop} {keep keep' : Var → Int → Prop}

/-- An operation leaves exactly the values that are to be kept. It fails only because some variable has none of them,
    and then says that there is no solution. -/
def Sieves (inside : Var → Prop) (operation : NarrowM α) (vars : Variables) (keep : Var → Int → Prop) : Prop :=
  Ensures operation vars (fun _ after => vars.Sieved keep after) fun failure _ =>
    failure.Infeasible ∧ ∃ v, inside v ∧ ∀ n, vars.CanBe v n → ¬ keep v n

theorem Sieves.congr {operation : NarrowM α} (sieves : Sieves inside operation vars keep)
    (same : ∀ v n, vars.CanBe v n → (keep v n ↔ keep' v n)) : Sieves inside operation vars keep' := by
  refine Ensures.mono sieves (fun _ after sieved => ⟨fun v n => ?_, sieved.has⟩) ?_
  · rw [sieved.canBe]
    exact and_congr_right (same v n)
  · rintro failure _ ⟨infeasible, v, known, none⟩
    exact ⟨infeasible, v, known, fun n canBe => (same v n canBe).not.1 (none n canBe)⟩

theorem Sieves.pure : Sieves inside (pure ⟨⟩ : NarrowM PUnit) vars fun _ _ => True :=
  Variables.Sieved.refl fun _ _ _ => trivial

theorem Variables.Sifts.sieves {operation : NarrowM Bool} (sifts : vars.Sifts v x s passes operation) (known : inside v)
    (found : vars.get? v = some x) (domain : x.domain = .finite s) :
    Sieves inside (discard operation) vars fun w n => w = v → passes n := by
  refine ensures_discard.2 ?_
  have leaves := sifts.leaves
  unfold Ensures at leaves ⊢
  cases outcome : operation vars with
  | ok lost after =>
      rw [outcome] at leaves
      cases lost with
      | false =>
          obtain rfl : after = vars := leaves
          have all := sifts.unchanged.1 ⟨_, outcome⟩
          refine .refl fun w n canBe here => all n ?_
          rwa [here, canBe_iff found domain] at canBe
      | true => exact leaves.1.sieved found domain (sifts.shortened.1 ⟨_, outcome⟩).1
  | error failure after =>
      rw [outcome] at leaves
      have none := sifts.emptied.1 ⟨_, _, outcome⟩
      exact ⟨leaves.2.1, v, known, fun n canBe pass => none n ((canBe_iff found domain).1 canBe) (pass rfl)⟩

/-- Operations one after another keep what all of them keep. -/
theorem Sieves.forM {β : Type} {step : β → NarrowM PUnit} {target : β → Var} {keeps : β → Var → Int → Prop} {as : List β}
    (each : ∀ a ∈ as, ∀ vars, vars.HasValues (target a) → Sieves inside (step a) vars (keeps a))
    (has : ∀ a ∈ as, vars.HasValues (target a)) :
    Sieves inside (as.forM step) vars fun v n => ∀ a ∈ as, keeps a v n := by
  induction as generalizing vars with
  | nil => exact Sieves.pure.congr fun _ _ _ => by simp
  | cons a as ih =>
      rw [List.forM, Sieves, ensures_bind]
      refine Ensures.mono (each a (by simp) vars (has a (by simp))) (fun _ middle first => ?_) ?_
      · have rest : Sieves inside (as.forM step) middle fun v n => ∀ a ∈ as, keeps a v n :=
          ih (fun b member => each b (by simp [member])) fun b member => first.has _ (has b (by simp [member]))
        refine Ensures.mono rest (fun _ after second => ?_) ?_
        · refine ⟨fun v n => ?_, (first.trans second).has⟩
          rw [(first.trans second).canBe, List.forall_mem_cons]
        · rintro failure _ ⟨infeasible, v, known, none⟩
          refine ⟨infeasible, v, known, fun n canBe all => ?_⟩
          rw [List.forall_mem_cons] at all
          exact none n ((first.canBe v n).2 ⟨canBe, all.1⟩) all.2
      · rintro failure _ ⟨infeasible, v, known, none⟩
        exact ⟨infeasible, v, known, fun n canBe all => none n canBe (all a (by simp))⟩

/-! ## Single narrowings -/

theorem sieves_enforce {a : Atom} (known : inside a.var) (has : vars.HasValues a.var) :
    Sieves inside a.enforce vars fun v n => v = a.var → a.holds (ofInt n) = true := by
  obtain ⟨x, s, found, domain, some⟩ := has.exists_finite
  have same : a.enforce vars = discard (Variables.retain a.var fun n => a.holds (ofInt n)) vars := by
    simp only [Atom.enforce, fetch_bind found, domain]
  rw [Sieves, Ensures, same]
  exact (Variables.sifts_retain found domain some fun _ _ => Iff.rfl).sieves known found domain

theorem sieves_refute {a : Atom} (known : inside a.var) (has : vars.HasValues a.var) :
    Sieves inside a.refute vars fun v n => v = a.var → a.holds (ofInt n) = false := by
  obtain ⟨x, s, found, domain, some⟩ := has.exists_finite
  rw [Sieves, Ensures, Atom.refute_eq_finite found domain]
  exact (Variables.sifts_retain found domain some fun _ _ => by simp).sieves known found domain

/-- A truth variable that is narrowed to a truth value can be that value only. -/
theorem sieves_narrow_truth {m : Int} (truth : m = 0 ∨ m = 1) (known : inside v) (isTruth : vars.IsTruth v) :
    Sieves inside (discard (Variables.narrow v (.point (ofInt m)))) vars fun w n => w = v → n = m := by
  obtain ⟨x, s, found, domain, some⟩ := isTruth.has.exists_finite
  have proper : (Interval.point (ofInt m)).Proper := Interval.proper_ofBounds _ _
  refine ((Variables.sifts_narrow proper found domain some).sieves known found domain).congr fun w n canBe => ?_
  refine imp_congr_right fun here => ?_
  subst here
  rcases truth with rfl | rfl <;> rcases isTruth.truth n canBe with rfl | rfl <;> decide

end

/-! ## Tests -/

namespace Atom

variable {vars : Variables} {a : Atom} {n : Int} (has : vars.HasValues a.var)

include has

theorem holds_of_yes (yes : a.truthIn vars = .yes) (canBe : vars.CanBe a.var n) : a.holds (ofInt n) = true :=
  (holds_iff (Binary64.isNumber_ofInt n)).2 ((truthIn_eq_yes_iff has).1 yes n canBe)

theorem fails_of_no (no : a.truthIn vars = .no) (canBe : vars.CanBe a.var n) : a.holds (ofInt n) = false :=
  Bool.eq_false_iff.2 fun holds =>
    (truthIn_eq_no_iff has).1 no n canBe ((holds_iff (Binary64.isNumber_ofInt n)).1 holds)

theorem exists_fails (notYes : a.truthIn vars ≠ .yes) : ∃ n, vars.CanBe a.var n ∧ a.holds (ofInt n) = false := by
  by_contra! all
  refine notYes ((truthIn_eq_yes_iff has).2 fun n canBe => (holds_iff (Binary64.isNumber_ofInt n)).1 ?_)
  simpa using all n canBe

theorem exists_holds (notNo : a.truthIn vars ≠ .no) : ∃ n, vars.CanBe a.var n ∧ a.holds (ofInt n) = true := by
  by_contra! none
  exact notNo ((truthIn_eq_no_iff has).2 fun n canBe holds =>
    none n canBe ((holds_iff (Binary64.isNumber_ofInt n)).2 holds))

end Atom

/-! ## Solutions -/

namespace Variables

variable {vars : Variables} {v w : Var} {n : Int}

theorem HasValues.exists_canBe (has : vars.HasValues v) : ∃ n, vars.CanBe v n := by
  obtain ⟨x, s, found, domain, some⟩ := has.exists_finite
  obtain ⟨n, member⟩ := List.isEmpty_eq_false_iff_exists_mem.1 some
  exact ⟨n, x, s, found, domain, member⟩

/-- A value of another variable that is the same if that is no other one. -/
theorem CanBe.exists_beside (canBe : vars.CanBe v n) (has : vars.HasValues w) :
    ∃ m, vars.CanBe w m ∧ (w = v → m = n) := by
  by_cases here : w = v
  · exact ⟨n, here ▸ canBe, fun _ => rfl⟩
  · exact has.exists_canBe.imp fun m canBe => ⟨canBe, fun same => absurd same here⟩

/-- A value of one variable and any values of the others that are wanted. -/
theorem CanBe.exists_choice {vs : List Var} {wanted : Var → Int → Prop} (canBe : vars.CanBe v n)
    (each : ∀ w ∈ vs, w ≠ v → ∃ m, vars.CanBe w m ∧ wanted w m) :
    ∃ x : Var → Int, x v = n ∧ (∀ w ∈ vs, vars.CanBe w (x w)) ∧ ∀ w ∈ vs, w ≠ v → wanted w (x w) := by
  choose! y chosen using each
  have elsewhere (w : Var) (other : w ≠ v) : Function.update y v n w = y w := Function.update_of_ne other n y
  refine ⟨Function.update y v n, Function.update_self v n y, fun w member => ?_, fun w member other => ?_⟩
  · by_cases here : w = v
    · rwa [here, Function.update_self]
    · rw [elsewhere w here]
      exact (chosen w member here).1
  · rw [elsewhere w other]
    exact (chosen w member other).2

end Variables

namespace Reified

variable {c : Reified} {vars after : Variables} {v : Var} {n : Int} {keep : Var → Int → Prop}

/-- Values of the variables of a conjunction for which the indicator tells whether all tests hold. -/
structure Solution (c : Reified) (vars : Variables) (x : Var → Int) : Prop where
  canBe : ∀ v ∈ c.scope, vars.CanBe v (x v)
  holds : x c.indicator = 1 ↔ ∀ a ∈ c.atoms, a.holds (ofInt (x a.var)) = true

/-- No solution is lost, none is gained, and every value that is left belongs to one. -/
structure DomainConsistent (c : Reified) (before after : Variables) : Prop where
  solutions : ∀ x, c.Solution after x ↔ c.Solution before x
  supported : ∀ v ∈ c.scope, ∀ n, after.CanBe v n → ∃ x, c.Solution after x ∧ x v = n
  has : ∀ v ∈ c.scope, after.HasValues v

/-- An operation leaves the conjunction domain consistent, or fails because it has no solution. -/
def Prunes (c : Reified) (operation : NarrowM Unit) (vars : Variables) : Prop :=
  Ensures operation vars (fun _ after => c.DomainConsistent vars after)
    fun failure _ => failure.Infeasible ∧ ¬ ∃ x, c.Solution vars x

/-- A conjunction over integer variables that are all different, and an indicator that is one more truth variable. -/
structure Regular (c : Reified) (vars : Variables) : Prop where
  isTruth : vars.IsTruth c.indicator
  has : ∀ v ∈ c.scope, vars.HasValues v
  distinct : (c.indicator :: c.atoms.map Atom.var).Nodup

theorem indicator_mem (c : Reified) : c.indicator ∈ c.scope := by simp [scope]

theorem var_mem {a : Atom} (member : a ∈ c.atoms) : a.var ∈ c.scope := by
  rw [scope, List.mem_append]
  exact .inl (List.mem_map_of_mem member)

namespace Regular

variable {a b : Atom} (regular : c.Regular vars)

include regular

theorem apart (member : a ∈ c.atoms) : a.var ≠ c.indicator := fun same =>
  (List.nodup_cons.1 regular.distinct).1 (same ▸ List.mem_map_of_mem member)

theorem eq_of_var (member : a ∈ c.atoms) (member' : b ∈ c.atoms) (same : a.var = b.var) : a = b :=
  List.inj_on_of_nodup_map (List.nodup_cons.1 regular.distinct).2 member member' same

theorem sieved (sieved : vars.Sieved keep after) : c.Regular after where
  isTruth := ⟨sieved.has _ regular.isTruth.has, fun n canBe => regular.isTruth.truth n ((sieved.canBe _ n).1 canBe).1⟩
  has v member := sieved.has v (regular.has v member)
  distinct := regular.distinct

/-- If the indicator can be 0, then a value belongs to a solution together with one that fails a test. -/
theorem supported_of_fails (zero : vars.CanBe c.indicator 0) (canBe : vars.CanBe v n) (member : a ∈ c.atoms) {m : Int}
    (canFail : vars.CanBe a.var m) (fails : a.holds (ofInt m) = false) (same : a.var = v → m = n)
    (indicator : c.indicator = v → n = 0) : ∃ x, c.Solution vars x ∧ x v = n := by
  have each (w : Var) (inScope : w ∈ c.scope) (_ : w ≠ v) :
      ∃ k, vars.CanBe w k ∧ (w = a.var → k = m) ∧ (w = c.indicator → k = 0) := by
    by_cases tested : w = a.var
    · exact ⟨m, tested ▸ canFail, fun _ => rfl, fun here => absurd (tested.symm.trans here) (regular.apart member)⟩
    · by_cases here : w = c.indicator
      · exact ⟨0, here ▸ zero, fun same => absurd same tested, fun _ => rfl⟩
      · obtain ⟨k, canBe⟩ := (regular.has w inScope).exists_canBe
        exact ⟨k, canBe, fun same => absurd same tested, fun same => absurd same here⟩
  obtain ⟨x, here, values, elsewhere⟩ := canBe.exists_choice each
  have chosen : x a.var = m := by
    by_cases at_v : a.var = v
    · rw [at_v, here, same at_v]
    · exact (elsewhere a.var (var_mem member) at_v).1 rfl
  have decided : x c.indicator = 0 := by
    by_cases at_v : c.indicator = v
    · rw [at_v, here, indicator at_v]
    · exact (elsewhere c.indicator c.indicator_mem at_v).2 rfl
  refine ⟨x, ⟨values, iff_of_false (by rw [decided]; decide) fun all => ?_⟩, here⟩
  have holds := all a member
  rw [chosen, fails] at holds
  cases holds

/-- If the indicator can be 1, and each test can hold, then a value that passes belongs to a solution. -/
theorem supported_of_holds (one : vars.CanBe c.indicator 1) (canBe : vars.CanBe v n)
    (passes : ∀ a ∈ c.atoms, a.var = v → a.holds (ofInt n) = true) (indicator : c.indicator = v → n = 1)
    (each : ∀ a ∈ c.atoms, ∃ m, vars.CanBe a.var m ∧ a.holds (ofInt m) = true) :
    ∃ x, c.Solution vars x ∧ x v = n := by
  have each (w : Var) (inScope : w ∈ c.scope) (_ : w ≠ v) : ∃ k, vars.CanBe w k ∧
      (∀ b ∈ c.atoms, b.var = w → b.holds (ofInt k) = true) ∧ (c.indicator = w → k = 1) := by
    rcases List.mem_append.1 inScope with tested | here
    · obtain ⟨a, member, rfl⟩ := List.mem_map.1 tested
      obtain ⟨k, canBe, holds⟩ := each a member
      refine ⟨k, canBe, fun b member' same => ?_, fun here => absurd here.symm (regular.apart member)⟩
      rwa [regular.eq_of_var member' member same]
    · obtain rfl := List.mem_singleton.1 here
      exact ⟨1, one, fun b member same => absurd same (regular.apart member), fun _ => rfl⟩
  obtain ⟨x, here, values, elsewhere⟩ := canBe.exists_choice each
  have decided : x c.indicator = 1 := by
    by_cases at_v : c.indicator = v
    · rw [at_v, here, indicator at_v]
    · exact (elsewhere c.indicator c.indicator_mem at_v).2 rfl
  refine ⟨x, ⟨values, iff_of_true decided fun a member => ?_⟩, here⟩
  by_cases at_v : a.var = v
  · rw [at_v, here]
    exact passes a member at_v
  · exact (elsewhere a.var (var_mem member) at_v).1 a member rfl

/-- An indicator that can be both is chosen last. -/
theorem supported_of_both (zero : vars.CanBe c.indicator 0) (one : vars.CanBe c.indicator 1)
    (noNo : ∀ a ∈ c.atoms, a.truthIn vars ≠ .no) (member : a ∈ c.atoms) (notYes : a.truthIn vars ≠ .yes)
    (canBe : vars.CanBe v n) : ∃ x, c.Solution vars x ∧ x v = n := by
  have each (b : Atom) (member : b ∈ c.atoms) : ∃ m, vars.CanBe b.var m ∧ b.holds (ofInt m) = true :=
    Atom.exists_holds (regular.has _ (var_mem member)) (noNo b member)
  by_cases here : c.indicator = v
  · subst here
    rcases regular.isTruth.truth n canBe with rfl | rfl
    · obtain ⟨m, canFail, fails⟩ := Atom.exists_fails (regular.has _ (var_mem member)) notYes
      exact regular.supported_of_fails zero canBe member canFail fails
        (fun same => absurd same (regular.apart member)) fun _ => rfl
    · exact regular.supported_of_holds one canBe (fun b member same => absurd same (regular.apart member))
        (fun _ => rfl) each
  · by_cases passes : ∀ b ∈ c.atoms, b.var = v → b.holds (ofInt n) = true
    · exact regular.supported_of_holds one canBe passes (fun same => absurd same here) each
    · push Not at passes
      obtain ⟨b, member', rfl, fails⟩ := passes
      exact regular.supported_of_fails zero canBe member' canBe (Bool.eq_false_iff.2 fails) (fun _ => rfl)
        fun same => absurd same here

/-- A response that solutions pass, and that leaves only values that belong to solutions. -/
theorem ensures_of_sieves {operation : NarrowM Unit} (sieves : Sieves (· ∈ c.scope) operation vars keep)
    (kept : ∀ x, c.Solution vars x → ∀ v ∈ c.scope, keep v (x v))
    (supported : ∀ after, vars.Sieved keep after → c.Regular after → ∀ v ∈ c.scope, ∀ n, after.CanBe v n →
      ∃ x, c.Solution after x ∧ x v = n) :
    c.Prunes operation vars := by
  refine Ensures.mono sieves (fun _ after left => ?_) ?_
  · have regular' := regular.sieved left
    refine ⟨fun x => ⟨fun solution => ?_, fun solution => ?_⟩, supported after left regular', regular'.has⟩
    · exact ⟨fun v member => ((left.canBe v _).1 (solution.canBe v member)).1, solution.holds⟩
    · exact ⟨fun v member => (left.canBe v _).2 ⟨solution.canBe v member, kept x solution v member⟩, solution.holds⟩
  · rintro failure _ ⟨infeasible, v, member, none⟩
    exact ⟨infeasible, fun ⟨x, solution⟩ => none _ (solution.canBe v member) (kept x solution v member)⟩

/-! ## Responses -/

/-- Nothing has to be done if every value belongs to a solution already. -/
theorem ensures_pure_of_supported (supported : ∀ v n, vars.CanBe v n → ∃ x, c.Solution vars x ∧ x v = n) :
    c.Prunes (pure ()) vars :=
  ensures_pure.2 ⟨fun _ => Iff.rfl, fun v _ => supported v, regular.has⟩

theorem respond_no (member : a ∈ c.atoms) (no : a.truthIn vars = .no) :
    c.Prunes (c.respond vars) vars := by
  have fails {m : Int} := Atom.fails_of_no (n := m) (regular.has _ (var_mem member)) no
  have zero : (0.0 : Float) = ofInt 0 := by decide +kernel
  rw [respond_of_no member no, zero]
  refine regular.ensures_of_sieves (sieves_narrow_truth (.inl rfl) c.indicator_mem regular.isTruth) ?_ ?_
  · rintro x solution _ - rfl
    refine (regular.isTruth.truth _ (solution.canBe _ c.indicator_mem)).resolve_right fun one => ?_
    have holds := solution.holds.1 one a member
    rw [fails (solution.canBe _ (var_mem member))] at holds
    cases holds
  · intro after left regular' v _ n canBe
    have only {m : Int} (canBe : after.CanBe c.indicator m) : m = 0 := ((left.canBe _ m).1 canBe).2 rfl
    obtain ⟨k, indicator⟩ := regular'.isTruth.has.exists_canBe
    obtain ⟨m, canFail, same⟩ := canBe.exists_beside (regular'.has _ (var_mem member))
    exact regular'.supported_of_fails (only indicator ▸ indicator) canBe member canFail
      (fails ((left.canBe _ m).1 canFail).1) same fun here => only (here ▸ canBe)

theorem respond_yes (yes : ∀ a ∈ c.atoms, a.truthIn vars = .yes) :
    c.Prunes (c.respond vars) vars := by
  have holds {a : Atom} {m : Int} (member : a ∈ c.atoms) :=
    Atom.holds_of_yes (n := m) (regular.has _ (var_mem member)) (yes a member)
  have one : (1.0 : Float) = ofInt 1 := by decide +kernel
  rw [respond_of_yes yes, one]
  refine regular.ensures_of_sieves (sieves_narrow_truth (.inr rfl) c.indicator_mem regular.isTruth) ?_ ?_
  · rintro x solution _ - rfl
    exact solution.holds.2 fun a member => holds member (solution.canBe _ (var_mem member))
  · intro after left regular' v _ n canBe
    have only {m : Int} (canBe : after.CanBe c.indicator m) : m = 1 := ((left.canBe _ m).1 canBe).2 rfl
    have older {w : Var} {m : Int} (canBe : after.CanBe w m) : vars.CanBe w m := ((left.canBe w m).1 canBe).1
    obtain ⟨k, indicator⟩ := regular'.isTruth.has.exists_canBe
    refine regular'.supported_of_holds (only indicator ▸ indicator) canBe
      (fun a member here => holds member (here ▸ older canBe)) (fun here => only (here ▸ canBe)) fun a member => ?_
    obtain ⟨m, canBe⟩ := (regular'.has _ (var_mem member)).exists_canBe
    exact ⟨m, canBe, holds member (older canBe)⟩

section

variable (noNo : ∀ a ∈ c.atoms, a.truthIn vars ≠ .no) (member : a ∈ c.atoms) (notYes : a.truthIn vars ≠ .yes)

include noNo member notYes

theorem respond_one (one : vars.Fixes c.indicator 1) :
    c.Prunes (c.respond vars) vars := by
  rw [respond_of_one noNo member notYes one]
  refine regular.ensures_of_sieves (Sieves.forM
    (fun a member vars (has : vars.HasValues a.var) => sieves_enforce (var_mem member) has)
    fun a member => regular.has _ (var_mem member)) ?_ ?_
  · rintro x solution v - b member' rfl
    exact solution.holds.1 ((solution.canBe _ c.indicator_mem).eq_of_fixes one) b member'
  · intro after left regular' v _ n canBe
    have only {m : Int} (canBe : after.CanBe c.indicator m) : m = 1 :=
      ((left.canBe _ m).1 canBe).1.eq_of_fixes one
    obtain ⟨k, indicator⟩ := regular'.isTruth.has.exists_canBe
    refine regular'.supported_of_holds (only indicator ▸ indicator) canBe
      (fun b member' here => ((left.canBe v n).1 canBe).2 b member' here.symm) (fun here => only (here ▸ canBe))
      fun b member' => ?_
    obtain ⟨m, canBe⟩ := (regular'.has _ (var_mem member')).exists_canBe
    exact ⟨m, canBe, ((left.canBe _ m).1 canBe).2 b member' rfl⟩

/-- An indicator of 0 refutes the only open test, as all others are known to hold. -/
theorem respond_zero (zero : vars.Fixes c.indicator 0) :
    c.Prunes (c.respond vars) vars := by
  have isOpen {b : Atom} : b ∈ (c.atoms.filter fun b => b.truthIn vars == .unknown) ↔
      b ∈ c.atoms ∧ b.truthIn vars ≠ .yes := by
    rw [List.mem_filter]
    refine and_congr_right fun member' => ?_
    have notNo := noNo b member'
    cases truth : b.truthIn vars <;> simp_all
  have off {x : Var → Int} (solution : c.Solution vars x) : x c.indicator = 0 :=
    (solution.canBe _ c.indicator_mem).eq_of_fixes zero
  rw [respond_of_zero noNo member notYes zero]
  rcases opens : c.atoms.filter (fun b => b.truthIn vars == .unknown) with _ | ⟨last, _ | ⟨next, rest⟩⟩
  · exact absurd (isOpen.2 ⟨member, notYes⟩) (by simp [opens])
  · rw [opens]
    obtain ⟨listed, -⟩ := (isOpen (b := last)).1 (by rw [opens]; exact List.mem_singleton_self last)
    have settled {b : Atom} (member' : b ∈ c.atoms) (other : b ≠ last) : b.truthIn vars = .yes := by
      by_contra notYes
      have isOpen := isOpen.2 ⟨member', notYes⟩
      rw [opens] at isOpen
      exact other (List.mem_singleton.1 isOpen)
    refine regular.ensures_of_sieves (sieves_refute (var_mem listed) (regular.has _ (var_mem listed))) ?_ ?_
    · rintro x solution _ - rfl
      refine Bool.eq_false_iff.2 fun holds => ?_
      have one := solution.holds.2 fun b member' => ?_
      · rw [off solution] at one
        cases one
      · by_cases same : b = last
        · rwa [same]
        · exact Atom.holds_of_yes (regular.has _ (var_mem member')) (settled member' same)
            (solution.canBe _ (var_mem member'))
    · intro after left regular' v _ n canBe
      have only {m : Int} (canBe : after.CanBe c.indicator m) : m = 0 :=
        ((left.canBe _ m).1 canBe).1.eq_of_fixes zero
      obtain ⟨k, indicator⟩ := regular'.isTruth.has.exists_canBe
      obtain ⟨m, canFail, same⟩ := canBe.exists_beside (regular'.has _ (var_mem listed))
      exact regular'.supported_of_fails (only indicator ▸ indicator) canBe listed canFail
        (((left.canBe _ m).1 canFail).2 rfl) same fun here => only (here ▸ canBe)
  · -- Of two open tests, one does not test the variable that is given, and can fail.
    rw [opens]
    refine regular.ensures_pure_of_supported fun v n canBe => ?_
    obtain ⟨listed, notYes⟩ := (isOpen (b := last)).1 (by simp [opens])
    obtain ⟨listed', notYes'⟩ := (isOpen (b := next)).1 (by simp [opens])
    have different : last ≠ next := by
      have nodup := (List.Nodup.of_map _ (List.nodup_cons.1 regular.distinct).2).filter
        fun b => b.truthIn vars == .unknown
      rw [opens, List.nodup_cons] at nodup
      rintro rfl
      exact nodup.1 List.mem_cons_self
    obtain ⟨b, member', notYes', apart⟩ : ∃ b ∈ c.atoms, b.truthIn vars ≠ .yes ∧ b.var ≠ v := by
      by_cases here : last.var = v
      · exact ⟨next, listed', notYes', fun here' => different (regular.eq_of_var listed listed' (here.trans here'.symm))⟩
      · exact ⟨last, listed, notYes, here⟩
    obtain ⟨m, canFail, fails⟩ := Atom.exists_fails (regular.has _ (var_mem member')) notYes'
    exact regular.supported_of_fails zero.canBe canBe member' canFail fails (fun same => absurd same apart)
      fun here => (here ▸ canBe : vars.CanBe c.indicator n).eq_of_fixes zero

end

/-- However a conjunction responds, it is domain consistent then, or has no solution. -/
theorem respond : c.Prunes (c.respond vars) vars := by
  rcases c.cases_truth vars with ⟨a, member, no⟩ | yes | ⟨noNo, a, member, notYes⟩
  · exact regular.respond_no member no
  · exact regular.respond_yes yes
  · rcases regular.isTruth.cases with zero | one | ⟨zero, one⟩
    · exact regular.respond_zero noNo member notYes zero
    · exact regular.respond_one noNo member notYes one
    · rw [respond_of_both noNo member notYes zero one]
      exact regular.ensures_pure_of_supported fun v n canBe =>
        regular.supported_of_both zero one noNo member notYes canBe

end Regular

theorem DomainConsistent.regular (consistent : c.DomainConsistent vars after) (regular : c.Regular vars) :
    c.Regular after where
  isTruth := by
    refine ⟨consistent.has _ c.indicator_mem, fun n canBe => ?_⟩
    obtain ⟨x, solution, rfl⟩ := consistent.supported _ c.indicator_mem n canBe
    exact regular.isTruth.truth _ (((consistent.solutions x).1 solution).canBe _ c.indicator_mem)
  has := consistent.has
  distinct := regular.distinct

theorem DomainConsistent.trans {middle : Variables} (first : c.DomainConsistent vars middle)
    (second : c.DomainConsistent middle after) : c.DomainConsistent vars after where
  solutions x := (second.solutions x).trans (first.solutions x)
  supported := second.supported
  has := second.has

/-- One invocation is enough. -/
theorem Regular.propagate (regular : c.Regular vars) : c.Prunes c.propagate vars := by
  rw [Prunes, Ensures, propagate_eq_respond fun v member => (regular.has v member).contains]
  exact regular.respond

/-! ## Propagations -/

theorem solution_forgetChanges {x : Var → Int} : c.Solution (Propagation.forgetChanges vars) x ↔ c.Solution vars x :=
  ⟨fun solution => ⟨solution.canBe, solution.holds⟩, fun solution => ⟨solution.canBe, solution.holds⟩⟩

theorem Regular.forgetChanges (regular : c.Regular vars) : c.Regular (Propagation.forgetChanges vars) :=
  ⟨⟨regular.isTruth.has, regular.isTruth.truth⟩, regular.has, regular.distinct⟩

theorem DomainConsistent.forgetChanges (consistent : c.DomainConsistent vars after) :
    c.DomainConsistent vars (Propagation.forgetChanges after) where
  solutions x := solution_forgetChanges.trans (consistent.solutions x)
  supported v member n canBe :=
    (consistent.supported v member n canBe).imp fun _ both => ⟨solution_forgetChanges.2 both.1, both.2⟩
  has := consistent.has

/-- If there is no other constraint, then all invocations after the first one take nothing away. -/
theorem Regular.propagate_store {batches : List Store} {store : Store} (reachable : Reachable batches store)
    (only : store.constraints = #[.reified c]) (regular : c.Regular store.vars) :
    Ensures Store.propagate store (fun _ after => c.DomainConsistent store.vars after.vars)
      fun failure _ => failure.Infeasible ∧ ¬ ∃ x, c.Solution store.vars x := by
  have result : Ensures Store.propagate store (fun _ after => c.DomainConsistent store.vars after.vars)
      fun failure _ => failure.Infeasible → ¬ ∃ x, c.Solution store.vars x := Store.ensures_propagate_of_only
    (c := .reified c) (motive := c.DomainConsistent store.vars) only reachable.steps_pos
    (Ensures.mono regular.forgetChanges.propagate
      (fun _ after first => ⟨fun x => (first.forgetChanges.solutions x).trans solution_forgetChanges,
        first.forgetChanges.supported, first.has⟩)
      fun _ _ both _ ⟨x, solution⟩ => both.2 ⟨x, solution_forgetChanges.2 solution⟩)
    (fun before consistent => Ensures.mono (consistent.regular regular).propagate
      (fun _ _ next => (consistent.trans next).forgetChanges)
      fun _ _ both _ ⟨x, solution⟩ => both.2 ⟨x, (consistent.solutions x).2 solution⟩)
    fun _ _ infeasible => infeasible.elim
  unfold Ensures at result ⊢
  cases ran : Store.propagate store with
  | ok _ after =>
      rw [ran] at result
      exact result
  | error failure after =>
      rw [ran] at result
      have plain (d : Constraint) (member : d ∈ store.constraints) : FailsPlainly d.propagate := by
        obtain rfl : d = .reified c := by simpa [only] using member
        exact .reified c
      have infeasible := reachable.invariant.1.infeasible_of_propagate (by simp [only, Constraint.IsBuiltIn]) plain ran
      exact ⟨infeasible, result infeasible⟩

end Reified

/-! ## Posted conjunctions -/

/-- An indicator that is accepted has no values but 0 and 1. -/
theorem Store.isBoolean_of_postReified {indicator : Var} {atoms : List Atom} {store after : Store}
    (ran : postReified indicator atoms store = .ok () after) :
    ∃ x, after.vars.get? indicator = some x ∧ isBoolean x.domain = true := by
  have checks : Ensures (postReified indicator atoms) store
      (fun _ after => ∃ x, after.vars.get? indicator = some x ∧ isBoolean x.domain = true) fun _ _ => True := by
    refine ensures_bind.2 ((Checks.checkVar indicator store).mono ?_ fun _ _ => id)
    rintro _ _ rfl
    refine ensures_bind.2 (ensures_onVars.2 (ensures_fetch (fun x found => ?_) fun _ => trivial))
    by_cases refused : (!isBoolean x.domain) = true
    · simp only [if_pos refused]
      trivial
    · simp only [if_neg refused]
      by_cases none : atoms.isEmpty = true
      · simp only [if_pos none]
        trivial
      · simp only [if_neg none]
        refine (posts_post _ _).mono ?_ fun _ _ => id
        rintro _ _ rfl
        exact ⟨x, found, by simpa using refused⟩
  rwa [Ensures, ran] at checks

theorem Variables.IsTruth.of_shrunk {before after : Variables} {v : Var} {x : Variable} (shrunk : before.Shrunk after)
    (found : before.get? v = some x) (boolean : Store.isBoolean x.domain = true) (has : after.HasValues v) :
    after.IsTruth v := by
  refine ⟨has, fun n canBe => ?_⟩
  obtain ⟨y, there, -, inside⟩ := shrunk v x found
  obtain ⟨z, t, there', domain, member⟩ := canBe
  obtain rfl := Option.some.inj (there.symm.trans there')
  rw [domain] at inside
  cases older : x.domain with
  | real r => exact (older ▸ inside : (Domain.finite t).Inside (.real r)).elim
  | finite s =>
      rw [older] at inside boolean
      simpa using List.all_eq_true.1 boolean n (inside n member)

/-- Conjunctions of tests of different integer variables, posted on a truth variable that is none of them, are domain
    consistent after one invocation: every value left of any of the variables belongs to a solution, no solution is
    lost, and an invocation fails exactly if there is none. The same holds of a propagation if there is no other
    constraint. -/
theorem Reified.propagate_domainConsistent (c : Reified) (before first : Store) (vars : Variables)
    (posted : Store.postReified c.indicator c.atoms before = .ok () first) (later : first.vars.Shrunk vars)
    (distinct : (c.indicator :: c.atoms.map Atom.var).Nodup) (has : ∀ v ∈ c.scope, vars.HasValues v) :
    Ensures c.propagate vars (fun _ after => c.DomainConsistent vars after)
      (fun failure _ => failure.Infeasible ∧ ¬ ∃ x, c.Solution vars x) ∧
    ∀ batches store, Reachable batches store → store.constraints = #[.reified c] → store.vars = vars →
      Ensures Store.propagate store (fun _ after => c.DomainConsistent vars after.vars)
        fun failure _ => failure.Infeasible ∧ ¬ ∃ x, c.Solution vars x := by
  obtain ⟨x, found, boolean⟩ := Store.isBoolean_of_postReified posted
  have regular : c.Regular vars := ⟨.of_shrunk later found boolean (has _ c.indicator_mem), has, distinct⟩
  refine ⟨regular.propagate, ?_⟩
  rintro batches store reachable only rfl
  exact regular.propagate_store reachable only

/-- An indicator that is 0 refutes the second test, as the first one holds. -/
theorem propagate_domainConsistent_refuted : ∃ (store : Store) (after : Variables),
    let c : Reified := { indicator := ⟨2⟩, atoms := [.atLeast ⟨0⟩ 2.0, .atLeast ⟨1⟩ 2.0] }
    Reachable [] store ∧ store.constraints = #[.reified c] ∧ c.propagate store.vars = .ok () after ∧
      c.DomainConsistent store.vars after ∧
      (after.get? ⟨1⟩).map Variable.domain = some (.finite (.range 0 1)) := by
  let c : Reified := { indicator := ⟨2⟩, atoms := [.atLeast ⟨0⟩ 2.0, .atLeast ⟨1⟩ 2.0] }
  let ranges := Store.fresh.ranging [("x", 2, 3), ("y", 0, 3), ("b", 0, 0)]
  have reachable : Reachable [] ranges :=
    Store.reachable_ranging Store.reachable_fresh (by decide) (by decide) (by simp [Store.fresh, Variables.empty])
  let store := ranges.posting (.reified c)
  have posted : Store.postReified c.indicator c.atoms ranges = .ok () store := rfl
  have reachable' : Reachable [] store := .succeeded reachable (.postReified _ _) posted
  have has : ∀ v ∈ c.scope, store.vars.HasValues v := by
    intro v member
    have known : v = ⟨0⟩ ∨ v = ⟨1⟩ ∨ v = ⟨2⟩ := by simpa [c, Reified.scope, Atom.var] using member
    rcases known with rfl | rfl | rfl <;> exact ⟨_, rfl, rfl, rfl⟩
  let look : NarrowM (Option Domain) := do
    c.propagate
    return ((← get).get? ⟨1⟩).map Variable.domain
  have domain : look.run' store.vars = some (some (.finite (.range 0 1))) := by decide +kernel
  have achieved := (Reified.propagate_domainConsistent c ranges store store.vars posted
    (.refl reachable'.invariant.1.sound) (by decide) has).1
  unfold Ensures at achieved
  simp only [look, EStateM.run', EStateM.run, Bind.bind, EStateM.bind] at domain
  cases ran : c.propagate store.vars with
  | ok _ after =>
      rw [ran] at achieved domain
      exact ⟨store, after, reachable', rfl, ran, achieved, Option.some.inj domain⟩
  | error _ _ => simp [ran] at domain

end StatBounds
