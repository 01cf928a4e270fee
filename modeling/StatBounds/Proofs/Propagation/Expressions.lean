import StatBounds.Proofs.Propagation.Frames
import StatBounds.Proofs.Propagation.Order

/-! # Narrowing by an expression

A formula that is made of an expression narrows the variables of the expression and nothing else. Whatever values of
their domains give the expression a value in the target, all of them are left. So the formula fails only if there are
none.
-/

namespace StatBounds.Formula

open Binary64 (value)

variable {e : Expr} {target : Interval} {vars after : Variables} {σ : Assignment}

/-- The variables of an expression are given values of their domains, for which all constants are finite, no divisor is
    zero, no root is taken of a negative number, and the value of the expression lies in the target. -/
structure Solves (vars : Variables) (e : Expr) (target : Interval) (σ : Assignment) : Prop where
  admits : vars.AdmitsOn (· ∈ e.vars) σ
  defined : e.Defined σ
  encloses : target.Encloses (e.real σ)

theorem local_ofExpr (e : Expr) (target : Interval) : Local (· ∈ e.vars) (ofExpr e target).propagate :=
  Local.formula (fun _ member => member) fun _ => mem_scope_of_mem_arena

/-- If its variables exist, then a formula fails only by saying that there is no solution. -/
theorem infeasible_of_propagate (known : ∀ v ∈ e.vars, vars.contains v = true) {failure : Failure}
    (fails : (ofExpr e target).propagate vars = .error failure after) : failure.Infeasible := by
  have narrows := (local_ofExpr e target).narrowing.narrowsWithin vars
  have plain := FailsPlainly.formula (ofExpr e target) vars
  rw [Ensures, fails] at narrows plain
  exact Failure.Plain.infeasible plain (narrows.2 known)

/-- A solution is kept, and a failure does not say that there is none. -/
theorem Solves.kept (solves : Solves vars e target σ) :
    Ensures (ofExpr e target).propagate vars (fun _ after => Solves after e target σ)
      fun failure _ => ¬ failure.Infeasible :=
  ((keeps (holds_ofExpr solves.defined solves.encloses)).on (local_ofExpr e target) solves.admits).mono
    (fun _ _ both => ⟨both.1, solves.defined, solves.encloses⟩) fun _ _ fails => fails.2

/-- A formula that has a solution succeeds, keeps all of its solutions, and leaves the variables alone that its
    expression does not mention. If a formula fails, then there is no solution. -/
theorem propagate_keeps_values (e : Expr) (target : Interval) (vars : Variables)
    (known : ∀ v ∈ e.vars, vars.contains v = true) :
    (∀ σ, Solves vars e target σ → ∃ after, (ofExpr e target).propagate vars = .ok () after ∧
      Solves after e target σ ∧ ∀ v, v ∉ e.vars → after.get? v = vars.get? v) ∧
    ∀ failure after, (ofExpr e target).propagate vars = .error failure after →
      failure.Infeasible ∧ ¬ ∃ σ, Solves vars e target σ := by
  refine ⟨fun σ solves => ?_, fun failure after fails => ?_⟩
  · have kept := solves.kept
    have elsewhere {v : Var} (apart : v ∉ e.vars) := (local_ofExpr e target).elsewhere apart vars
    unfold Ensures at kept elsewhere
    cases ran : (ofExpr e target).propagate vars with
    | ok _ after =>
        simp only [ran] at kept elsewhere
        exact ⟨after, rfl, kept, fun v apart => elsewhere apart⟩
    | error failure after =>
        simp only [ran] at kept
        exact absurd (infeasible_of_propagate known ran) kept
  · have infeasible := infeasible_of_propagate known fails
    refine ⟨infeasible, ?_⟩
    rintro ⟨σ, solves⟩
    have kept := solves.kept
    rw [Ensures, fails] at kept
    exact kept infeasible

/-- A square that is divided by its own root, which lies in an interval around zero: the quotient is one if the root
    is. The square alone is never negative. -/
theorem propagate_keeps_values_quotient :
    let quotient : Expr := .div (.sqr (.var ⟨0⟩)) (.var ⟨0⟩)
    let vars : Variables := {
      arena := #[{ name := "x", domain := .real { interval := ⟨-1.0, 3.0⟩, precision := 0.5 } },
        { name := "y", domain := .finite ⟨[1, 2, 3], by decide⟩ }]
      names := ∅, ratio := 0.0, changed := #[], trail := [], depth := 0 }
    (∃ after, (ofExpr quotient ⟨1.0, 1.0⟩).propagate vars = .ok () after ∧
      Solves after quotient ⟨1.0, 1.0⟩ (fun _ => .real 1) ∧ after.get? ⟨1⟩ = vars.get? ⟨1⟩) ∧
    ¬ ∃ σ, Solves vars (.sqr (.var ⟨0⟩)) ⟨-5.0, -4.0⟩ σ := by
  intro quotient vars
  have order : value (-1.0) < (1 : EReal) ∧ (1 : EReal) < value 3.0 := by
    rw [← Binary64.value_one]
    exact ⟨(Binary64.lt_iff.1 (by decide)).2.2, (Binary64.lt_iff.1 (by decide)).2.2⟩
  have solves : Solves vars quotient ⟨1.0, 1.0⟩ fun _ => .real 1 := by
    refine ⟨fun v x member found => ?_, ⟨trivial, trivial, one_ne_zero⟩, ⟨by rfl, by rfl⟩, ?_, ?_⟩
    · obtain rfl : v = ⟨0⟩ := by simpa [quotient, Expr.vars, Expr.occurrences] using member
      obtain rfl := Option.some.inj found
      exact ⟨⟨by rfl, by rfl⟩, order.1.le, order.2.le⟩
    · simp [quotient, Expr.real, Choice.reading, Binary64.value_one]
    · simp [quotient, Expr.real, Choice.reading, Binary64.value_one]
  refine ⟨?_, ?_⟩
  · obtain ⟨after, ran, kept, elsewhere⟩ := (propagate_keeps_values quotient ⟨1.0, 1.0⟩ vars (by decide)).1 _ solves
    exact ⟨after, ran, kept, elsewhere ⟨1⟩ (by decide)⟩
  · have fails : (ofExpr (.sqr (.var ⟨0⟩)) ⟨-5.0, -4.0⟩).propagate.run' vars = none := by decide +kernel
    cases ran : (ofExpr (.sqr (.var ⟨0⟩)) ⟨-5.0, -4.0⟩).propagate vars with
    | ok _ after => simp [EStateM.run', EStateM.run, ran] at fails
    | error failure after => exact ((propagate_keeps_values _ _ _ (by decide)).2 _ _ ran).2

end StatBounds.Formula
