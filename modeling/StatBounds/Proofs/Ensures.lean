import Mathlib

/-! # What stateful operations ensure

An operation on a state either succeeds or fails, and has changed the state in both cases. What it
ensures is stated by two conditions, one for each way to end, and is found by going through its steps.
-/

namespace StatBounds

section

variable {ε σ α β : Type}

/-- Starting from a state, an operation ends under the first condition if it succeeds, and under the
    second one if it fails. -/
def Ensures (operation : EStateM ε σ α) (start : σ) (ok : α → σ → Prop) (failed : ε → σ → Prop) : Prop :=
  match operation start with
  | .ok a after => ok a after
  | .error e after => failed e after

variable {start : σ} {ok : α → σ → Prop} {failed : ε → σ → Prop} {next : β → σ → Prop}

/-! ## Steps -/

@[simp] theorem ensures_pure {a : α} : Ensures (pure a) start ok failed ↔ ok a start := Iff.rfl

@[simp] theorem ensures_throw {e : ε} :
    Ensures (throw e : EStateM ε σ α) start ok failed ↔ failed e start := Iff.rfl

@[simp] theorem ensures_bind {first : EStateM ε σ α} {rest : α → EStateM ε σ β} :
    Ensures (first >>= rest) start next failed ↔
      Ensures first start (fun a after => Ensures (rest a) after next failed) failed := by
  simp only [Ensures, bind, EStateM.bind]
  cases first start <;> rfl

@[simp] theorem ensures_get {ok : σ → σ → Prop} :
    Ensures (get : EStateM ε σ σ) start ok failed ↔ ok start start := Iff.rfl

@[simp] theorem ensures_modify {change : σ → σ} {ok : PUnit → σ → Prop} :
    Ensures (modify change : EStateM ε σ PUnit) start ok failed ↔ ok ⟨⟩ (change start) := Iff.rfl

@[simp] theorem ensures_map {f : α → β} {operation : EStateM ε σ α} :
    Ensures (f <$> operation) start next failed ↔
      Ensures operation start (fun a after => next (f a) after) failed := by
  simp only [Ensures, Functor.map, EStateM.map]
  cases operation start <;> rfl

@[simp] theorem ensures_discard {operation : EStateM ε σ α} {ok : PUnit → σ → Prop} :
    Ensures (discard operation) start ok failed ↔
      Ensures operation start (fun _ after => ok ⟨⟩ after) failed :=
  ensures_map

theorem Ensures.mono {operation : EStateM ε σ α} {ok' : α → σ → Prop} {failed' : ε → σ → Prop}
    (ensures : Ensures operation start ok failed) (success : ∀ a after, ok a after → ok' a after)
    (failure : ∀ e after, failed e after → failed' e after) : Ensures operation start ok' failed' := by
  unfold Ensures at *
  cases outcome : operation start with
  | ok a after =>
      rw [outcome] at ensures
      exact success a after ensures
  | error e after =>
      rw [outcome] at ensures
      exact failure e after ensures

theorem ensures_of_forall {operation : EStateM ε σ α} (success : ∀ a after, ok a after)
    (failure : ∀ e after, failed e after) : Ensures operation start ok failed := by
  unfold Ensures
  cases operation start with
  | ok a after => exact success a after
  | error e after => exact failure e after

theorem Ensures.and {operation : EStateM ε σ α} {ok' : α → σ → Prop} {failed' : ε → σ → Prop}
    (one : Ensures operation start ok failed) (two : Ensures operation start ok' failed') :
    Ensures operation start (fun a after => ok a after ∧ ok' a after)
      fun e after => failed e after ∧ failed' e after := by
  unfold Ensures at *
  cases outcome : operation start with
  | ok a after =>
      rw [outcome] at one two
      exact ⟨one, two⟩
  | error e after =>
      rw [outcome] at one two
      exact ⟨one, two⟩

theorem Ensures.exists_ok {operation : EStateM ε σ α} (ensures : Ensures operation start ok fun _ _ => False) :
    ∃ a after, operation start = .ok a after ∧ ok a after := by
  unfold Ensures at ensures
  cases outcome : operation start with
  | ok a after =>
      rw [outcome] at ensures
      exact ⟨a, after, rfl, ensures⟩
  | error e after =>
      rw [outcome] at ensures
      exact ensures.elim

/-! ## Lists -/

/-- What every step of a list keeps is kept by the list. -/
theorem ensures_forM {invariant : σ → Prop} {step : α → EStateM ε σ PUnit} {as : List α}
    (each : ∀ a ∈ as, ∀ s, invariant s → Ensures (step a) s (fun _ after => invariant after) failed)
    (first : invariant start) : Ensures (as.forM step) start (fun _ after => invariant after) failed := by
  induction as generalizing start with
  | nil => exact first
  | cons a as ih =>
      rw [List.forM, ensures_bind]
      refine (each a (by simp) start first).mono (fun _ after kept => ?_) (fun _ _ fails => fails)
      exact ih (fun a member => each a (by simp [member])) kept

theorem ensures_mapM {invariant : σ → Prop} {related : α → β → Prop} {step : α → EStateM ε σ β}
    {as : List α}
    (each : ∀ a ∈ as, ∀ s, invariant s →
      Ensures (step a) s (fun b after => invariant after ∧ related a b) failed)
    (first : invariant start) :
    Ensures (as.mapM step) start (fun bs after => invariant after ∧ List.Forall₂ related as bs) failed := by
  induction as generalizing start with
  | nil => exact ⟨first, .nil⟩
  | cons a as ih =>
      rw [List.mapM_cons, ensures_bind]
      refine (each a (by simp) start first).mono (fun b after kept => ?_) (fun _ _ fails => fails)
      rw [ensures_bind]
      refine (ih (fun a member => each a (by simp [member])) kept.1).mono (fun bs last rest => ?_)
        (fun _ _ fails => fails)
      exact ⟨rest.1, .cons kept.2 rest.2⟩

end

end StatBounds
