import StatBounds.Proofs.Domain.Readings
import StatBounds.Proofs.Ensures
import StatBounds.Proofs.Store.Steps

/-! # Narrowing keeps what lies in the target

A choice for every variable is admitted by the variables as long as each of them is given a value of its
domain. Narrowing a variable to a target that its choice lies in keeps the choice, and does not fail for
want of values.
-/

namespace StatBounds

open Binary64 (IsNumber value)

/-- A choice for every variable. -/
abbrev Assignment := Var → Choice

/-- Every variable is given a value of its domain. -/
def Variables.Admits (vars : Variables) (σ : Assignment) : Prop :=
  ∀ v x, vars.get? v = some x → x.domain.Admits (σ v)

/-- Every variable of a kind is given a value of its domain. -/
def Variables.AdmitsOn (inside : Var → Prop) (vars : Variables) (σ : Assignment) : Prop :=
  ∀ v x, inside v → vars.get? v = some x → x.domain.Admits (σ v)

/-- The failure says that the constraints have no solution. -/
def Failure.Infeasible : Failure → Prop
  | .error e => e.kind = .infeasible
  | .fault _ => False

/-- From variables that admit an assignment an operation leads to variables that admit it too. It has a
    result with the given property, or fails for another reason than that there is no solution. -/
def Keeps {α : Type} (σ : Assignment) (operation : NarrowM α) (result : α → Prop) : Prop :=
  ∀ vars, vars.Admits σ → Ensures operation vars (fun a after => after.Admits σ ∧ result a)
    fun failure after => after.Admits σ ∧ ¬ failure.Infeasible

variable {σ : Assignment} {inside : Var → Prop} {v : Var}

theorem Variables.admitsOn_true {vars : Variables} : vars.AdmitsOn (fun _ => True) σ ↔ vars.Admits σ :=
  ⟨fun admits v x => admits v x trivial, fun admits v x _ => admits v x⟩

/-- What keeps the choices for any kind of variables keeps those for all of them. -/
theorem Keeps.of_admitsOn {α : Type} {operation : NarrowM α}
    (keeps : ∀ vars : Variables, vars.AdmitsOn (fun _ => True) σ →
      Ensures operation vars (fun _ after => after.AdmitsOn (fun _ => True) σ)
        fun failure after => after.AdmitsOn (fun _ => True) σ ∧ ¬ failure.Infeasible) :
    Keeps σ operation fun _ => True := by
  simp only [Variables.admitsOn_true] at keeps
  exact fun vars admits => (keeps vars admits).mono (fun _ _ kept => ⟨kept, trivial⟩) fun _ _ fails => fails

/-! ## Composition -/

section

variable {α β : Type}

theorem Keeps.bind {first : NarrowM α} {rest : α → NarrowM β} {result : α → Prop} {last : β → Prop}
    (keeps : Keeps σ first result) (keepsRest : ∀ a, result a → Keeps σ (rest a) last) :
    Keeps σ (first >>= rest) last := by
  intro vars admits
  rw [ensures_bind]
  exact (keeps vars admits).mono (fun a after both => keepsRest a both.2 after both.1) (fun _ _ fails => fails)

theorem Keeps.pure {a : α} {result : α → Prop} (holds : result a) : Keeps σ (pure a) result :=
  fun _ admits => ⟨admits, holds⟩

theorem Keeps.get : Keeps σ get fun vars => vars.Admits σ :=
  fun _ admits => ⟨admits, admits⟩

theorem Keeps.discard {operation : NarrowM α} {result : α → Prop} (keeps : Keeps σ operation result) :
    Keeps σ (discard operation) fun _ => True :=
  fun vars admits => ensures_discard.2 <|
    (keeps vars admits).mono (fun _ _ both => ⟨both.1, trivial⟩) (fun _ _ fails => fails)

theorem Keeps.forM {step : α → NarrowM PUnit} {as : List α}
    (each : ∀ a ∈ as, Keeps σ (step a) fun _ => True) : Keeps σ (as.forM step) fun _ => True := by
  intro vars admits
  have all : Ensures (as.forM step) vars (fun _ after => after.Admits σ) fun failure after =>
      after.Admits σ ∧ ¬ failure.Infeasible := by
    refine ensures_forM (fun a member s kept => ?_) admits
    exact (each a member s kept).mono (fun _ _ both => both.1) (fun _ _ fails => fails)
  exact all.mono (fun _ _ kept => ⟨kept, trivial⟩) (fun _ _ fails => fails)

theorem Keeps.mapM {step : α → NarrowM β} {as : List α} {related : α → β → Prop}
    (each : ∀ a ∈ as, Keeps σ (step a) (related a)) :
    Keeps σ (as.mapM step) (List.Forall₂ related as) :=
  fun _ admits => ensures_mapM each admits

end

/-! ## Reading -/

theorem Keeps.fetch : Keeps σ (Variables.fetch v) fun x => x.domain.Admits (σ v) := by
  intro vars admits
  simp only [Variables.fetch, ensures_bind, ensures_get]
  cases found : vars.get? v with
  | none => exact ⟨admits, id⟩
  | some x => exact ⟨admits, admits v x found⟩

theorem Keeps.require {vs : List Var} : Keeps σ (Variables.require vs) fun _ => True :=
  Keeps.forM fun _ _ => Keeps.fetch.discard

theorem Variables.AdmitsOn.encloses_bounds {vars : Variables} (admits : vars.AdmitsOn inside σ) (known : inside v) :
    (vars.bounds v).Encloses (σ v).reading := by
  unfold bounds
  cases found : vars.get? v with
  | none => exact ⟨⟨by rfl, by rfl⟩, by simp [Interval.entire], by simp [Interval.entire]⟩
  | some x => exact (admits v x known found).encloses_hull

theorem Variables.Admits.encloses_bounds {vars : Variables} (admits : vars.Admits σ) (v : Var) :
    (vars.bounds v).Encloses (σ v).reading :=
  (admitsOn_true.2 admits).encloses_bounds trivial

/-! ## Writing -/

theorem Variables.AdmitsOn.setDomain {vars : Variables} (admits : vars.AdmitsOn inside σ) {domain : Domain}
    (chosen : domain.Admits (σ v)) : (vars.setDomain v domain).AdmitsOn inside σ := by
  intro w x known found
  simp only [get?, Variables.setDomain, Array.getElem?_modify] at found
  split_ifs at found with same
  · obtain ⟨y, -, rfl⟩ := Option.map_eq_some_iff.1 found
    obtain rfl : v = w := congrArg Var.mk same
    exact chosen
  · exact admits w x known found

theorem Variables.AdmitsOn.save {vars : Variables} (admits : vars.AdmitsOn inside σ) (w : Var) (domain : Domain) :
    (vars.save w domain).AdmitsOn inside σ := by
  unfold Variables.save
  split_ifs <;> exact admits

theorem Variables.AdmitsOn.record {vars : Variables} (admits : vars.AdmitsOn inside σ) (w : Var) :
    (vars.record w).AdmitsOn inside σ :=
  admits

/-- A filter that the choice for a variable passes keeps the choices. -/
theorem Variables.AdmitsOn.retain {vars : Variables} (admits : vars.AdmitsOn inside σ) (known : inside v)
    {keep : Int → Bool} (passes : ∀ n : Int64, σ v = .int n → keep n.toInt = true) :
    Ensures (Variables.retain v keep) vars (fun _ after => after.AdmitsOn inside σ)
      fun failure after => after.AdmitsOn inside σ ∧ ¬ failure.Infeasible := by
  cases found : vars.get? v with
  | none =>
      rw [Ensures, retain_missing found]
      exact ⟨admits, id⟩
  | some x =>
      have chosen := admits v x known found
      cases domain : x.domain with
      | real r =>
          rw [Ensures, retain_real found domain]
          exact ⟨admits, by simp [Failure.Infeasible, Error.kind]⟩
      | finite s =>
          rw [domain] at chosen
          cases choice : σ v with
          | real r => exact (choice ▸ chosen : (Domain.finite s).Admits (.real r)).elim
          | int n =>
              have member : n.toInt ∈ s.values := (choice ▸ chosen : (Domain.finite s).Admits (.int n))
              have kept : n.toInt ∈ (s.filter keep).values := IntSet.mem_filter.2 ⟨member, passes n choice⟩
              have some : (s.filter keep).isEmpty = false := by
                simpa [IntSet.isEmpty] using List.ne_nil_of_mem kept
              have admitted : (Domain.finite (s.filter keep)).Admits (σ v) := by
                rw [choice]
                exact kept
              have after := (admits.save v x.domain).setDomain admitted
              rw [Ensures, retain_eq found domain, some]
              split_ifs
              · exact admits
              · contradiction
              · exact after.record v

/-- An interval that encloses what a variable is read as keeps the choices. -/
theorem Variables.AdmitsOn.narrow {vars : Variables} (admits : vars.AdmitsOn inside σ) (known : inside v)
    {onto : Interval} (encloses : onto.Encloses (σ v).reading) :
    Ensures (Variables.narrow v onto) vars (fun _ after => after.AdmitsOn inside σ)
      fun failure after => after.AdmitsOn inside σ ∧ ¬ failure.Infeasible := by
  cases found : vars.get? v with
  | none =>
      rw [Ensures, narrow_missing found]
      exact ⟨admits, id⟩
  | some x =>
      have chosen := admits v x known found
      cases domain : x.domain with
      | finite s =>
          rw [Ensures, narrow_eq_finite found domain]
          split_ifs
          · refine admits.retain known fun n choice => ?_
            have reading := Choice.value_ofInt n
            rw [← choice] at reading
            simp only [ge_iff_le, Bool.and_eq_true, decide_eq_true_eq, Binary64.le_iff, reading,
              Binary64.isNumber_ofInt, encloses.proper.lo, encloses.proper.hi, encloses.lower, encloses.upper,
              and_self]
          · exact admits
      | real r =>
          rw [domain] at chosen
          have both : (r.interval.intersect onto).Encloses (σ v).reading := chosen.encloses_hull.intersect encloses
          have admitted : (Domain.real { r with interval := r.interval.intersect onto }).Admits (σ v) := by
            cases choice : σ v with
            | int n => exact (choice ▸ chosen : (Domain.real r).Admits (.int n)).elim
            | real x => exact (choice ▸ both : (r.interval.intersect onto).Encloses (Choice.real x).reading)
          have after := (admits.save v x.domain).setDomain admitted
          rw [Ensures, narrow_eq_real found domain]
          dsimp only
          rw [both.notEmpty]
          split_ifs
          · exact admits
          · contradiction
          · exact after.record v
          · exact after

theorem keeps_retain {keep : Int → Bool} (passes : ∀ n : Int64, σ v = .int n → keep n.toInt = true) :
    Keeps σ (Variables.retain v keep) fun _ => True :=
  .of_admitsOn fun _ admits => admits.retain trivial passes

theorem keeps_narrow {onto : Interval} (encloses : onto.Encloses (σ v).reading) :
    Keeps σ (Variables.narrow v onto) fun _ => True :=
  .of_admitsOn fun _ admits => admits.narrow trivial encloses

theorem keeps_restrict {onto : Domain} (chosen : onto.Admits (σ v)) :
    Keeps σ (Variables.restrict v onto) fun _ => True := by
  unfold Variables.restrict
  refine Keeps.fetch.bind fun x _ => ?_
  cases domain : x.domain with
  | finite s =>
      cases onto with
      | finite allowed =>
          refine keeps_retain fun n choice => ?_
          rw [choice] at chosen
          simpa [IntSet.contains, Domain.Admits] using chosen
      | real r => exact keeps_narrow chosen.encloses_hull
  | real r => exact keeps_narrow chosen.encloses_hull

end StatBounds
