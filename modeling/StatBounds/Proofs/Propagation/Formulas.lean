import StatBounds.Proofs.Expr.Meaning
import StatBounds.Proofs.Interval.Products
import StatBounds.Proofs.Propagation.Soundness
import StatBounds.Proofs.Store.Narrowing

/-! # Formulas keep their solutions

Suppose that every node of an arena has been given a value. Evaluating the arena from the leaves to the root
encloses these values, and so does projecting the root back to the leaves: each projection solves the equation of
one node for one of its operands. So the leaves are narrowed to intervals that enclose what they are read as.
-/

namespace StatBounds

variable {σ : Assignment} {ρ : Nat → ℝ} {values : Array Interval}

/-- The interval at every position encloses the value there. -/
def EnclosesValues (values : Array Interval) (ρ : Nat → ℝ) : Prop :=
  ∀ p, (valueAt values p).Encloses (ρ p)

/-- A step on the intervals of an arena does not fail, and encloses the values afterwards. -/
def KeepsValues (ρ : Nat → ℝ) (step : Option (Array Interval)) : Prop :=
  ∃ after, step = some after ∧ EnclosesValues after ρ

theorem EnclosesValues.map (encloses : EnclosesValues values ρ) (terms : List Nat) :
    Interval.EnclosesAll (terms.map (valueAt values)) (terms.map ρ) := by
  rw [Interval.EnclosesAll, List.forall₂_map_left_iff, List.forall₂_map_right_iff, List.forall₂_same]
  intro term _
  exact encloses term

/-- Positions beyond the end tell nothing. -/
theorem enclosesValues_empty (ρ : Nat → ℝ) : EnclosesValues #[] ρ := by
  intro p
  exact Interval.encloses_entire _

theorem EnclosesValues.push {i : Interval} (encloses : EnclosesValues values ρ) (last : i.Encloses (ρ values.size)) :
    EnclosesValues (values.push i) ρ := by
  intro p
  rw [valueAt, Array.getD_eq_getD_getElem?, Array.getElem?_push]
  split_ifs with same
  · rw [same]
    exact last
  · rw [← Array.getD_eq_getD_getElem?]
    exact encloses p

theorem EnclosesValues.set {i : Interval} {p : Nat} (encloses : EnclosesValues values ρ) (there : i.Encloses (ρ p)) :
    EnclosesValues (values.setIfInBounds p i) ρ := by
  intro q
  rw [valueAt, Array.getD_eq_getD_getElem?, Array.getElem?_setIfInBounds]
  split_ifs with same inside
  · rw [← same]
    exact there
  · exact Interval.encloses_entire _
  · rw [← Array.getD_eq_getD_getElem?]
    exact encloses q

theorem KeepsValues.bind {step : Option (Array Interval)} {rest : Array Interval → Option (Array Interval)}
    (first : KeepsValues ρ step) (second : ∀ after, EnclosesValues after ρ → KeepsValues ρ (rest after)) :
    KeepsValues ρ (step >>= rest) := by
  obtain ⟨after, rfl, encloses⟩ := first
  exact second after encloses

/-! ## From the leaves to the root -/

theorem Node.Denotes.encloses {node : Node} {r : ℝ} {bounds : Var → Interval} (denotes : node.Denotes σ ρ r)
    (leaves : ∀ v, (bounds v).Encloses (σ v).reading) (encloses : EnclosesValues values ρ) :
    (node.evaluate bounds values).Encloses r := by
  cases node with
  | var v => exact denotes ▸ leaves v
  | const i => exact denotes
  | neg a => exact denotes ▸ (encloses a).neg
  | add a b => exact denotes ▸ (encloses a).add (encloses b)
  | sub a b => exact denotes ▸ (encloses a).sub (encloses b)
  | mul a b =>
      have product := (encloses a).mul (encloses b)
      rwa [← EReal.coe_mul, denotes] at product
  | div a b =>
      obtain ⟨-, quotient⟩ := denotes
      have ratio := (encloses a).div (encloses b)
      rwa [← EReal.coe_div, quotient] at ratio
  | sqr a =>
      have square := (encloses a).sqr
      rwa [← EReal.coe_mul, denotes] at square
  | sqrt a =>
      obtain ⟨nonneg, root⟩ := denotes
      exact root ▸ (encloses a).sqrt nonneg
  | sum terms => exact denotes ▸ Interval.encloses_sum (encloses.map terms)

/-- Every node sees the intervals of its operands, which come before it. -/
theorem Valuation.encloses_evaluateArena {arena : Array Node} {bounds : Var → Interval}
    (valuation : Valuation σ arena ρ) (leaves : ∀ v, (bounds v).Encloses (σ v).reading) :
    (evaluateArena bounds arena).size = arena.size ∧ EnclosesValues (evaluateArena bounds arena) ρ := by
  refine Array.foldl_induction (fun i values => values.size = i ∧ EnclosesValues values ρ)
    ⟨rfl, enclosesValues_empty ρ⟩ ?_
  rintro i values ⟨size, encloses⟩
  have denotes := valuation.denotes i arena[i] (Array.getElem?_eq_getElem i.isLt)
  refine ⟨by rw [Array.size_push, size], encloses.push ?_⟩
  rw [size]
  exact denotes.encloses leaves encloses

/-! ## From the root to the leaves -/

namespace Interval

variable {i j : Interval}

/-- A factor lies in the quotient of the product by the other factor. Where the other factor may be zero, that is
    the whole line. -/
theorem Encloses.factor {x y : ℝ} (product : i.Encloses ((x * y : ℝ) : EReal)) (other : j.Encloses y) :
    (i / j).Encloses x := by
  have quotient := product.div other
  rw [← EReal.coe_div] at quotient
  by_cases zero : y = 0
  · have contains : j.containsZero = true := by
      rw [zero] at other
      simp only [containsZero, contains, Bool.and_eq_true, decide_eq_true_eq, Binary64.le_iff, other.proper.lo,
        other.proper.hi, Binary64.isNumber_zero, Binary64.value_zero, true_and]
      exact ⟨other.lower, other.upper⟩
    have entire : i / j = entire := by
      change Interval.div i j = _
      rw [Interval.div, product.notEmpty, other.notEmpty, contains]
      rfl
    rw [entire]
    exact encloses_entire _
  · rwa [mul_div_cancel_right₀ x zero] at quotient

end Interval

theorem EnclosesValues.project {p : Nat} {onto : Interval} (encloses : EnclosesValues values ρ)
    (target : onto.Encloses (ρ p)) : KeepsValues ρ (project? values p onto) := by
  have meet := (encloses p).intersect target
  refine ⟨values.setIfInBounds p ((valueAt values p).intersect onto), ?_, encloses.set meet⟩
  simp only [project?, meet.notEmpty, Bool.false_eq_true, if_false]

theorem EnclosesValues.projectAll {v : Interval} {parts : List (Nat × Interval)}
    (each : ∀ part ∈ parts, (v - part.2).Encloses (ρ part.1)) (encloses : EnclosesValues values ρ) :
    KeepsValues ρ (parts.foldlM (fun values part => project? values part.1 (v - part.2)) values) := by
  induction parts generalizing values with
  | nil => exact ⟨values, rfl, encloses⟩
  | cons part parts ih =>
      rw [List.foldlM_cons]
      refine (encloses.project (each part (by simp))).bind fun after kept => ?_
      exact ih (fun other member => each other (by simp [member])) kept

theorem Node.Denotes.projectChildren {node : Node} {r : ℝ} {v : Interval} (denotes : node.Denotes σ ρ r)
    (root : v.Encloses r) (encloses : EnclosesValues values ρ) : KeepsValues ρ (node.projectChildren? values v) := by
  cases node with
  | var w => exact ⟨values, rfl, encloses⟩
  | const i => exact ⟨values, rfl, encloses⟩
  | neg a =>
      have same : ρ a = -r := by rw [← (denotes : -ρ a = r), neg_neg]
      refine encloses.project ?_
      rw [same]
      exact root.neg
  | add a b =>
      have sum : ρ a + ρ b = r := denotes
      refine KeepsValues.bind (encloses.project ?_) fun after kept => kept.project ?_
      · rw [show ρ a = r - ρ b by linarith]
        exact root.sub (encloses b)
      · rw [show ρ b = r - ρ a by linarith]
        exact root.sub (kept a)
  | sub a b =>
      have difference : ρ a - ρ b = r := denotes
      refine KeepsValues.bind (encloses.project ?_) fun after kept => kept.project ?_
      · rw [show ρ a = r + ρ b by linarith]
        exact root.add (encloses b)
      · rw [show ρ b = ρ a - r by linarith]
        exact (kept a).sub root
  | mul a b =>
      have product : ρ a * ρ b = r := denotes
      refine KeepsValues.bind (encloses.project ?_) fun after kept => kept.project ?_
      · exact Interval.Encloses.factor (product ▸ root) (encloses b)
      · rw [mul_comm] at product
        exact Interval.Encloses.factor (product ▸ root) (kept a)
  | div a b =>
      obtain ⟨nonzero, quotient⟩ := denotes
      have product : ρ a = r * ρ b := by rw [← quotient, div_mul_cancel₀ _ nonzero]
      refine KeepsValues.bind (encloses.project ?_) fun after kept => kept.project ?_
      · have bound := root.mul (encloses b)
        rwa [← EReal.coe_mul, ← product] at bound
      · rw [mul_comm] at product
        exact Interval.Encloses.factor (product ▸ kept a) root
  | sqr a =>
      have square : ρ a * ρ a = r := denotes
      exact encloses.project ((encloses a).sqrPreimage (square ▸ root))
  | sqrt a =>
      obtain ⟨nonneg, same⟩ := denotes
      have positive : Interval.nonNegative.Encloses r := by
        refine ⟨Interval.proper_nonNegative, ?_, by simp [Interval.nonNegative]⟩
        rw [← same]
        simp [Interval.nonNegative, Real.sqrt_nonneg]
      refine encloses.project ?_
      have square := (root.intersect positive).sqr
      rwa [← EReal.coe_mul, ← same, Real.mul_self_sqrt nonneg] at square
  | sum terms =>
      have sum : (terms.map ρ).sum = r := denotes
      have others := Interval.encloses_sumsOfOthers (encloses.map terms)
      rw [List.forall₂_map_right_iff] at others
      refine encloses.projectAll fun part member => ?_
      have left := root.sub (List.forall₂_zip others.flip member)
      rwa [sum, sub_sub_cancel] at left

/-- Parents are visited before their operands, each with what is left of its interval by then. -/
theorem Valuation.projectBefore {arena : Array Node} (valuation : Valuation σ arena ρ) (position : Nat)
    (encloses : EnclosesValues values ρ) : KeepsValues ρ (projectBefore? arena position values) := by
  induction position generalizing values with
  | zero => exact ⟨values, rfl, encloses⟩
  | succ position ih =>
      cases found : arena[position]? with
      | none =>
          rw [projectBefore?, found]
          exact ih encloses
      | some node =>
          have children := (valuation.denotes position node found).projectChildren (encloses position) encloses
          rw [projectBefore?, found]
          exact children.bind fun after kept => ih kept

/-! ## Formulas -/

namespace Formula

variable {f : Formula}

theorem Holds.revise {bounds : Var → Interval} (holds : f.Holds σ) (leaves : ∀ v, (bounds v).Encloses (σ v).reading) :
    ∃ values, f.revise? bounds = some values ∧ ∀ leaf ∈ f.leaves values, leaf.2.Encloses (σ leaf.1).reading := by
  obtain ⟨ρ, valuation, root⟩ := holds
  obtain ⟨-, evaluated⟩ := valuation.encloses_evaluateArena leaves
  have kept : KeepsValues ρ (f.revise? bounds) :=
    (evaluated.project root).bind fun after encloses => valuation.projectBefore _ encloses
  obtain ⟨values, some, encloses⟩ := kept
  refine ⟨values, some, fun leaf member => ?_⟩
  rw [Formula.leaves, List.mem_filterMap] at member
  obtain ⟨⟨node, value⟩, paired, same⟩ := member
  cases node with
  | var v =>
      obtain rfl : (v, value) = leaf := by simpa using same
      obtain ⟨p, found⟩ := List.mem_iff_getElem?.1 paired
      rw [List.getElem?_zip_eq_some] at found
      obtain ⟨node, there⟩ := found
      have denotes : (σ v).reading = ρ p := valuation.denotes p (.var v) (by simpa using node)
      have interval : valueAt values p = value := by
        rw [valueAt, Array.getD_eq_getD_getElem?, ← Array.getElem?_toList, there, Option.getD_some]
      rw [denotes, ← interval]
      exact encloses p
  | _ => simp at same

/-- The propagation of a formula keeps every assignment that it holds for. -/
theorem keeps (holds : f.Holds σ) : Keeps σ f.propagate fun _ => True := by
  unfold propagate
  refine Keeps.require.bind fun _ _ => Keeps.get.bind fun vars admits => ?_
  obtain ⟨values, some, leaves⟩ := holds.revise admits.encloses_bounds
  rw [some]
  exact Keeps.forM fun leaf member => (keeps_narrow (leaves leaf member)).discard

end Formula

/-! ## The meaning of built-in constraints -/

namespace Constraint

/-- What open constraints mean: a formula that its expression lies in its target, and nothing is known of a
    user-defined one. -/
def standard : Constraint → Assignment → Prop
  | formula f, σ => f.Holds σ
  | _, _ => True

/-- The assignment satisfies the constraint. -/
def Satisfied (σ : Assignment) (c : Constraint) : Prop :=
  c.Holds standard σ

end Constraint

end StatBounds
