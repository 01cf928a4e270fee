import Mathlib

/-! # Computations that may fail

How steps that may fail are combined: one after the other, and along a list.
-/

namespace StatBounds

section

variable {ε α β : Type}

@[simp] theorem ok_bind (a : α) (next : α → Except ε β) : (Except.ok a >>= next) = next a := rfl

@[simp] theorem error_bind (e : ε) (next : α → Except ε β) : (Except.error e >>= next) = .error e := rfl

@[simp] theorem pure_eq_ok (a : α) : (pure a : Except ε α) = .ok a := rfl

@[simp] theorem throw_eq_error (e : ε) : (throw e : Except ε α) = .error e := rfl

theorem bind_eq_ok {first : Except ε α} {next : α → Except ε β} {b : β} :
    first >>= next = .ok b ↔ ∃ a, first = .ok a ∧ next a = .ok b := by
  cases first <;> simp

theorem mapM_eq_ok_iff {f : α → Except ε β} {as : List α} {bs : List β} :
    as.mapM f = .ok bs ↔ List.Forall₂ (fun a b => f a = .ok b) as bs := by
  induction as generalizing bs with
  | nil => cases bs <;> simp
  | cons a as ih =>
      simp only [List.mapM_cons, bind_eq_ok, ih, pure_eq_ok, Except.ok.injEq]
      constructor
      · rintro ⟨b, first, rest, others, rfl⟩
        exact .cons first others
      · rintro (_ | ⟨first, others⟩)
        exact ⟨_, first, _, others, rfl⟩

theorem getElem?_of_mapM {f : α → Except ε β} {as : List α} {bs : List β} (all : as.mapM f = .ok bs)
    {i : Nat} {a : α} {b : β} (input : as[i]? = some a) (output : bs[i]? = some b) : f a = .ok b := by
  obtain ⟨inside, rfl⟩ := List.getElem?_eq_some_iff.1 input
  obtain ⟨insideOut, rfl⟩ := List.getElem?_eq_some_iff.1 output
  exact (mapM_eq_ok_iff.1 all).get inside insideOut

theorem length_of_mapM {f : α → Except ε β} {as : List α} {bs : List β} (all : as.mapM f = .ok bs) :
    bs.length = as.length :=
  (mapM_eq_ok_iff.1 all).length_eq.symm

theorem mapM_eq_ok_map {f : α → Except ε β} {g : α → β} {as : List α}
    (all : ∀ a ∈ as, f a = .ok (g a)) : as.mapM f = .ok (as.map g) := by
  rw [mapM_eq_ok_iff, List.forall₂_map_right_iff, List.forall₂_same]
  exact all

theorem exists_mapM_eq_ok {f : α → Except ε β} {as : List α} (all : ∀ a ∈ as, ∃ b, f a = .ok b) :
    ∃ bs, as.mapM f = .ok bs := by
  induction as with
  | nil => exact ⟨[], rfl⟩
  | cons a as ih =>
      obtain ⟨b, first⟩ := all a (by simp)
      obtain ⟨bs, rest⟩ := ih fun a member => all a (by simp [member])
      exact ⟨b :: bs, by simp [List.mapM_cons, first, rest]⟩

/-- One step that fails makes the whole list fail. -/
theorem mapM_eq_error {f : α → Except ε β} {as : List α} {a : α} {e : ε} (member : a ∈ as)
    (fails : f a = .error e) : ∃ e, as.mapM f = .error e := by
  cases outcome : as.mapM f with
  | error e => exact ⟨e, rfl⟩
  | ok bs =>
      obtain ⟨i, inside, rfl⟩ := List.getElem_of_mem member
      have related := mapM_eq_ok_iff.1 outcome
      have := related.get inside (related.length_eq ▸ inside)
      simp [fails] at this

theorem of_mapM_eq_error {p : ε → Prop} {f : α → Except ε β} {as : List α} {e : ε}
    (each : ∀ a ∈ as, ∀ e, f a = .error e → p e) (fails : as.mapM f = .error e) : p e := by
  induction as with
  | nil => cases fails
  | cons a as ih =>
      rw [List.mapM_cons] at fails
      cases first : f a with
      | error failure =>
          rw [first] at fails
          obtain rfl : failure = e := Except.error.inj fails
          exact each a (by simp) _ first
      | ok b =>
          rw [first, ok_bind] at fails
          cases rest : as.mapM f with
          | error failure =>
              rw [rest] at fails
              obtain rfl : failure = e := Except.error.inj fails
              exact ih (fun a member => each a (by simp [member])) rest
          | ok bs => simp [rest] at fails

theorem filterM_eq_ok {p : α → Except ε Bool} {q : α → Bool} {as : List α}
    (all : ∀ a ∈ as, p a = .ok (q a)) : as.filterM p = .ok (as.filter q) := by
  have collected (kept : List α) : as.filterAuxM p kept = .ok ((as.filter q).reverse ++ kept) := by
    induction as generalizing kept with
    | nil => rfl
    | cons a as ih =>
        have ih := ih fun a member => all a (by simp [member])
        rw [List.filterAuxM, all a (by simp), ok_bind, ih]
        cases keep : q a <;> simp [keep]
  rw [List.filterM, collected, ok_bind, List.append_nil, List.reverse_reverse, pure_eq_ok]

/-- If no step fails on what the steps before it keep, then all of them together do not fail. -/
theorem foldlM_eq_ok {invariant : β → Prop} {step : β → α → Except ε β} {as : List α} {start : β}
    (each : ∀ a ∈ as, ∀ b, invariant b → ∃ after, step b a = .ok after ∧ invariant after)
    (first : invariant start) : ∃ after, as.foldlM step start = .ok after ∧ invariant after := by
  induction as generalizing start with
  | nil => exact ⟨start, rfl, first⟩
  | cons a as ih =>
      obtain ⟨middle, stepped, kept⟩ := each a (by simp) start first
      obtain ⟨after, rest, last⟩ := ih (fun a member => each a (by simp [member])) kept
      exact ⟨after, by rw [List.foldlM_cons, stepped, ok_bind, rest], last⟩

end

theorem foldlM_eq_error {p : ε → Prop} {step : β → α → Except ε β} {as : List α} {start : β} {e : ε}
    (each : ∀ b, ∀ a ∈ as, ∀ e, step b a = .error e → p e) (fails : as.foldlM step start = .error e) : p e := by
  induction as generalizing start with
  | nil => cases fails
  | cons a as ih =>
      rw [List.foldlM_cons] at fails
      cases first : step start a with
      | error e' =>
          rw [first] at fails
          obtain rfl : e' = e := Except.error.inj fails
          exact each start a (by simp) e' first
      | ok middle =>
          rw [first] at fails
          exact ih (fun b a member => each b a (by simp [member])) fails

end StatBounds
