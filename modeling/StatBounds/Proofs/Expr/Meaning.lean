import StatBounds.Constraint.Formula
import StatBounds.Proofs.Propagation.Narrowing

/-! # What expressions and formulas mean

An expression has a real value unless it divides by zero or takes the root of a negative number somewhere. A
formula holds if every node of its arena can be given a real number in agreement with its operands, the root one
in the target. Laying out an expression gives every node the value of its subexpression.
-/

namespace StatBounds

open Binary64 (value)

variable {σ : Assignment}

namespace Expr

mutual

/-- The value of an expression on the real numbers. -/
noncomputable def real (σ : Assignment) : Expr → ℝ
  | var v => (σ v).reading
  | const c => (value c).toReal
  | neg a => -a.real σ
  | add a b => a.real σ + b.real σ
  | sub a b => a.real σ - b.real σ
  | mul a b => a.real σ * b.real σ
  | div a b => a.real σ / b.real σ
  | sqr a => a.real σ * a.real σ
  | sqrt a => √(a.real σ)
  | sum terms => (realAll σ terms).sum

noncomputable def realAll (σ : Assignment) : List Expr → List ℝ
  | [] => []
  | e :: rest => e.real σ :: realAll σ rest

end

mutual

/-- The expression has a value: constants are finite, divisors are not zero, and what stands under a root is not
    negative. -/
def Defined (σ : Assignment) : Expr → Prop
  | var _ => True
  | const c => ∃ r : ℝ, value c = r
  | neg a | sqr a => a.Defined σ
  | add a b | sub a b | mul a b => a.Defined σ ∧ b.Defined σ
  | div a b => a.Defined σ ∧ b.Defined σ ∧ b.real σ ≠ 0
  | sqrt a => a.Defined σ ∧ 0 ≤ a.real σ
  | sum terms => DefinedAll σ terms

def DefinedAll (σ : Assignment) : List Expr → Prop
  | [] => True
  | e :: rest => e.Defined σ ∧ DefinedAll σ rest

end

theorem realAll_eq_map (terms : List Expr) : realAll σ terms = terms.map (real σ) := by
  induction terms with
  | nil => rfl
  | cons e rest ih => rw [realAll, ih, List.map_cons]

theorem definedAll_iff {terms : List Expr} : DefinedAll σ terms ↔ ∀ e ∈ terms, e.Defined σ := by
  induction terms with
  | nil => simp [DefinedAll]
  | cons e rest ih => rw [DefinedAll, ih, List.forall_mem_cons]

/-- No terms add up to zero. -/
theorem real_total (terms : List Expr) : (total terms).real σ = (terms.map (real σ)).sum := by
  cases terms with
  | nil => simp [total, real, Binary64.value_zero]
  | cons e rest =>
      change (realAll σ (e :: rest)).sum = _
      rw [realAll_eq_map]

theorem defined_total {terms : List Expr} (each : ∀ e ∈ terms, e.Defined σ) : (total terms).Defined σ := by
  cases terms with
  | nil => exact ⟨0, Binary64.value_zero⟩
  | cons e rest => exact definedAll_iff.2 each

theorem exists_of_mem_total {es : List Expr} {v : Var} (member : v ∈ (total es).occurrences) :
    ∃ e ∈ es, v ∈ e.occurrences := by
  have listed (es : List Expr) (member : v ∈ occurrencesAll es) : ∃ e ∈ es, v ∈ e.occurrences := by
    induction es with
    | nil => exact absurd member (by simp [occurrencesAll])
    | cons e es ih =>
        rcases List.mem_append.1 member with here | later
        · exact ⟨e, by simp, here⟩
        · obtain ⟨e', member', occurs⟩ := ih later
          exact ⟨e', by simp [member'], occurs⟩
  cases es with
  | nil => exact absurd member (by simp [total, occurrences])
  | cons e es => exact listed _ member

end Expr

/-! ## Arenas -/

namespace Node

/-- The positions of the operands. -/
def children : Node → List Nat
  | var _ | const _ => []
  | neg a | sqr a | sqrt a => [a]
  | add a b | sub a b | mul a b | div a b => [a, b]
  | sum terms => terms

/-- The node has a value, given the values at all positions. -/
def Denotes (σ : Assignment) (ρ : Nat → ℝ) (r : ℝ) : Node → Prop
  | var v => (σ v).reading = r
  | const i => i.Encloses r
  | neg a => -ρ a = r
  | add a b => ρ a + ρ b = r
  | sub a b => ρ a - ρ b = r
  | mul a b => ρ a * ρ b = r
  | div a b => ρ b ≠ 0 ∧ ρ a / ρ b = r
  | sqr a => ρ a * ρ a = r
  | sqrt a => 0 ≤ ρ a ∧ √(ρ a) = r
  | sum terms => (terms.map ρ).sum = r

/-- The value of a node depends on its operands only. -/
theorem Denotes.congr {node : Node} {ρ ρ' : Nat → ℝ} {r : ℝ} (denotes : node.Denotes σ ρ r)
    (same : ∀ child ∈ node.children, ρ' child = ρ child) : node.Denotes σ ρ' r := by
  cases node with
  | var v => exact denotes
  | const i => exact denotes
  | sum terms =>
      have same : terms.map ρ' = terms.map ρ := List.map_congr_left same
      exact (congrArg List.sum same).trans denotes
  | _ =>
      simp only [children, List.forall_mem_cons, List.not_mem_nil, false_imp_iff, implies_true, and_true] at same
      simpa only [Denotes, same] using denotes

end Node

/-- Every node of an arena has the value at its position, and its operands come before it. -/
structure Valuation (σ : Assignment) (arena : Array Node) (ρ : Nat → ℝ) : Prop where
  denotes : ∀ p (node : Node), arena[p]? = some node → node.Denotes σ ρ (ρ p)
  earlier : ∀ p (node : Node), arena[p]? = some node → ∀ child ∈ node.children, child < p

theorem valuation_empty (ρ : Nat → ℝ) : Valuation σ #[] ρ where
  denotes := by simp
  earlier := by simp

theorem Valuation.push {arena : Array Node} {ρ : Nat → ℝ} {node : Node} {r : ℝ} (valuation : Valuation σ arena ρ)
    (earlier : ∀ child ∈ node.children, child < arena.size) (denotes : node.Denotes σ ρ r) :
    Valuation σ (arena.push node) (Function.update ρ arena.size r) where
  denotes p other found := by
    rw [Array.getElem?_push] at found
    split_ifs at found with last
    · obtain rfl := Option.some.inj found
      rw [last, Function.update_self]
      exact denotes.congr fun child member => Function.update_of_ne (earlier child member).ne _ _
    · have inside := (Array.getElem?_eq_some_iff.1 found).1
      rw [Function.update_of_ne last]
      refine (valuation.denotes p other found).congr fun child member => Function.update_of_ne ?_ _ _
      exact ((valuation.earlier p other found child member).trans inside).ne
  earlier p other found := by
    rw [Array.getElem?_push] at found
    split_ifs at found with last
    · obtain rfl := Option.some.inj found
      exact last ▸ earlier
    · exact valuation.earlier p other found

/-- One arena continues another one up to a root with a given value, and gives the old nodes their old values. -/
def Continues (σ : Assignment) (ρ : Nat → ℝ) (before after : Array Node) (r : ℝ) : Prop :=
  ∃ ρ', Valuation σ after ρ' ∧ (∀ p < before.size, ρ' p = ρ p) ∧ before.size < after.size ∧
    ρ' (after.size - 1) = r

section

variable {before : Array Node} {ρ : Nat → ℝ}

theorem Valuation.continues {node : Node} {r : ℝ} (valuation : Valuation σ before ρ)
    (earlier : ∀ child ∈ node.children, child < before.size) (denotes : node.Denotes σ ρ r) :
    Continues σ ρ before (before.push node) r := by
  refine ⟨_, valuation.push earlier denotes, fun p inside => Function.update_of_ne inside.ne _ _, by simp, ?_⟩
  rw [Array.size_push, Nat.add_sub_cancel, Function.update_self]

theorem Continues.trans {middle after : Array Node} {r s : ℝ} (first : Continues σ ρ before middle r)
    (second : ∀ ρ', Valuation σ middle ρ' → ρ' (middle.size - 1) = r → Continues σ ρ' middle after s) :
    Continues σ ρ before after s := by
  obtain ⟨ρ₁, valuation₁, same₁, more₁, root₁⟩ := first
  obtain ⟨ρ₂, valuation₂, same₂, more₂, root₂⟩ := second ρ₁ valuation₁ root₁
  exact ⟨ρ₂, valuation₂, fun p inside => (same₂ p (inside.trans more₁)).trans (same₁ p inside),
    more₁.trans more₂, root₂⟩

theorem Continues.unary {after : Array Node} {r s : ℝ} {node : Nat → Node} (operand : Continues σ ρ before after r)
    (children : ∀ a, (node a).children = [a]) (denotes : ∀ ρ' a, ρ' a = r → (node a).Denotes σ ρ' s) :
    Continues σ ρ before (Expr.layOut.layOutUnary node after) s := by
  have more : 0 < after.size := by
    obtain ⟨-, -, -, more, -⟩ := operand
    exact Nat.zero_lt_of_lt more
  refine operand.trans fun ρ' valuation root => valuation.continues ?_ (denotes ρ' _ root)
  rw [children, List.forall_mem_singleton]
  exact Nat.sub_one_lt_of_lt more

theorem Continues.binary {left : Array Node} {right : Array Node → Array Node} {r s t : ℝ} {node : Nat → Nat → Node}
    (first : Continues σ ρ before left r)
    (second : ∀ ρ', Valuation σ left ρ' → Continues σ ρ' left (right left) s)
    (children : ∀ a b, (node a b).children = [a, b])
    (denotes : ∀ ρ' a b, ρ' a = r → ρ' b = s → (node a b).Denotes σ ρ' t) :
    Continues σ ρ before (Expr.layOut.layOutBinary node left right) t := by
  have more : 0 < left.size := by
    obtain ⟨-, -, -, more, -⟩ := first
    exact Nat.zero_lt_of_lt more
  refine first.trans fun ρ₁ valuation₁ root₁ => ?_
  obtain ⟨ρ₂, valuation₂, same, more₂, root₂⟩ := second ρ₁ valuation₁
  have last : left.size - 1 < left.size := Nat.sub_one_lt_of_lt more
  have pushed : Continues σ ρ₂ (right left) ((right left).push (node (left.size - 1) ((right left).size - 1))) t := by
    refine valuation₂.continues ?_ (denotes ρ₂ _ _ ((same _ last).trans root₁) root₂)
    rw [children, List.forall_mem_cons, List.forall_mem_singleton]
    exact ⟨last.trans more₂, Nat.sub_one_lt_of_lt more₂⟩
  obtain ⟨ρ₃, valuation₃, same₃, more₃, root₃⟩ := pushed
  exact ⟨ρ₃, valuation₃, fun p inside => (same₃ p (inside.trans more₂)).trans (same p inside),
    more₂.trans more₃, root₃⟩

end

mutual

theorem continues_layOut : ∀ (e : Expr) {arena : Array Node} {ρ : Nat → ℝ}, e.Defined σ → Valuation σ arena ρ →
    Continues σ ρ arena (e.layOut arena) (e.real σ)
  | .var v, arena, ρ, _, valuation => valuation.continues (by simp [Node.children]) rfl
  | .const c, arena, ρ, defined, valuation => by
      refine valuation.continues (by simp [Node.children]) ?_
      obtain ⟨r, finite⟩ := defined
      rw [Node.Denotes, Expr.real, finite, EReal.toReal_coe, ← finite]
      exact Interval.encloses_point c
  | .neg a, arena, ρ, defined, valuation | .sqr a, arena, ρ, defined, valuation =>
      (continues_layOut a defined valuation).unary (fun _ => rfl) fun ρ' b same => by
        rw [Node.Denotes, Expr.real, same]
  | .sqrt a, arena, ρ, defined, valuation =>
      (continues_layOut a defined.1 valuation).unary (fun _ => rfl) fun ρ' b same => by
        rw [Node.Denotes, Expr.real, same]
        exact ⟨defined.2, rfl⟩
  | .add a b, arena, ρ, defined, valuation | .sub a b, arena, ρ, defined, valuation
  | .mul a b, arena, ρ, defined, valuation =>
      (continues_layOut a defined.1 valuation).binary (fun _ => continues_layOut b defined.2) (fun _ _ => rfl)
        fun ρ' c d left right => by rw [Node.Denotes, Expr.real, left, right]
  | .div a b, arena, ρ, defined, valuation =>
      (continues_layOut a defined.1 valuation).binary (fun _ => continues_layOut b defined.2.1) (fun _ _ => rfl)
        fun ρ' c d left right => by
          rw [Node.Denotes, Expr.real, left, right]
          exact ⟨defined.2.2, rfl⟩
  | .sum terms, arena, ρ, defined, valuation => by
      obtain ⟨ρ', valuation', same, more, inside, roots⟩ := continues_layOutAll terms defined valuation
      have earlier : ∀ child ∈ (Node.sum (Expr.layOutAll terms arena).1).children,
          child < (Expr.layOutAll terms arena).2.size := inside
      have denotes : (Node.sum (Expr.layOutAll terms arena).1).Denotes σ ρ' (Expr.realAll σ terms).sum :=
        congrArg List.sum roots
      obtain ⟨ρ'', valuation'', same', more', root⟩ := valuation'.continues earlier denotes
      exact ⟨ρ'', valuation'', fun p small => (same' p (small.trans_le more)).trans (same p small),
        more.trans_lt more', root⟩

theorem continues_layOutAll : ∀ (es : List Expr) {arena : Array Node} {ρ : Nat → ℝ}, Expr.DefinedAll σ es →
    Valuation σ arena ρ → ∃ ρ', Valuation σ (Expr.layOutAll es arena).2 ρ' ∧ (∀ p < arena.size, ρ' p = ρ p) ∧
      arena.size ≤ (Expr.layOutAll es arena).2.size ∧
      (∀ root ∈ (Expr.layOutAll es arena).1, root < (Expr.layOutAll es arena).2.size) ∧
      (Expr.layOutAll es arena).1.map ρ' = Expr.realAll σ es
  | [], arena, ρ, _, valuation => ⟨ρ, valuation, fun _ _ => rfl, le_rfl, by simp [Expr.layOutAll], rfl⟩
  | e :: rest, arena, ρ, defined, valuation => by
      obtain ⟨ρ₁, valuation₁, same₁, more₁, root⟩ := continues_layOut e defined.1 valuation
      obtain ⟨ρ₂, valuation₂, same₂, more₂, inside, roots⟩ := continues_layOutAll rest defined.2 valuation₁
      have last := Nat.sub_one_lt_of_lt more₁
      refine ⟨ρ₂, valuation₂, fun p small => (same₂ p (small.trans more₁)).trans (same₁ p small),
        more₁.le.trans more₂, List.forall_mem_cons.2 ⟨last.trans_le more₂, inside⟩, ?_⟩
      rw [Expr.realAll, ← roots, ← root, ← same₂ _ last]
      rfl

end

/-! ## Reading an arena back -/

/-- The nodes of one arena are the first ones of another. -/
def Starts (before after : Array Node) : Prop :=
  ∀ (p : Nat) (node : Node), before[p]? = some node → after[p]? = some node

theorem Starts.refl (arena : Array Node) : Starts arena arena :=
  fun _ _ found => found

theorem Starts.trans {first second third : Array Node} (one : Starts first second) (two : Starts second third) :
    Starts first third :=
  fun p node found => two p node (one p node found)

theorem starts_push (arena : Array Node) (node : Node) : Starts arena (arena.push node) := by
  intro p other found
  have inside := (Array.getElem?_eq_some_iff.1 found).1
  rw [Array.getElem?_push, if_neg inside.ne, found]

/-- The node that is pushed last is found behind the others. -/
theorem Starts.last {before after : Array Node} {node : Node} (starts : Starts (before.push node) after) :
    after[before.size]? = some node :=
  starts _ _ (by rw [Array.getElem?_push, if_pos rfl])

mutual

theorem starts_layOut : ∀ (e : Expr) (arena : Array Node), Starts arena (e.layOut arena)
  | .var _, _ | .const _, _ => starts_push _ _
  | .neg a, arena | .sqr a, arena | .sqrt a, arena => (starts_layOut a arena).trans (starts_push _ _)
  | .add a b, arena | .sub a b, arena | .mul a b, arena | .div a b, arena =>
      ((starts_layOut a arena).trans (starts_layOut b _)).trans (starts_push _ _)
  | .sum terms, arena => (starts_layOutAll terms arena).trans (starts_push _ _)

theorem starts_layOutAll : ∀ (es : List Expr) (arena : Array Node), Starts arena (Expr.layOutAll es arena).2
  | [], arena => .refl arena
  | e :: rest, arena => (starts_layOut e arena).trans (starts_layOutAll rest _)

end

namespace Expr

mutual

def FiniteConstants : Expr → Prop
  | var _ => True
  | const c => Binary64.IsNumber c ∧ ∃ r : ℝ, value c = r
  | neg a | sqr a | sqrt a => a.FiniteConstants
  | add a b | sub a b | mul a b | div a b => a.FiniteConstants ∧ b.FiniteConstants
  | sum terms => FiniteConstantsAll terms

def FiniteConstantsAll : List Expr → Prop
  | [] => True
  | e :: rest => e.FiniteConstants ∧ FiniteConstantsAll rest

end

theorem finiteConstantsAll_iff {terms : List Expr} : FiniteConstantsAll terms ↔ ∀ e ∈ terms, e.FiniteConstants := by
  induction terms with
  | nil => simp [FiniteConstantsAll]
  | cons e rest ih => rw [FiniteConstantsAll, ih, List.forall_mem_cons]

theorem finiteConstants_total {terms : List Expr} (each : ∀ e ∈ terms, e.FiniteConstants) :
    (total terms).FiniteConstants := by
  cases terms with
  | nil => exact ⟨Binary64.isNumber_zero, 0, Binary64.value_zero⟩
  | cons e rest => exact finiteConstantsAll_iff.2 each

end Expr

section

variable {whole : Array Node} {ρ : Nat → ℝ}

theorem Valuation.unary {operand : Array Node} {node : Nat → Node} (valuation : Valuation σ whole ρ)
    (starts : Starts (Expr.layOut.layOutUnary node operand) whole) :
    Starts operand whole ∧ (node (operand.size - 1)).Denotes σ ρ
      (ρ ((Expr.layOut.layOutUnary node operand).size - 1)) := by
  have root : (Expr.layOut.layOutUnary node operand).size - 1 = operand.size := by
    simp [Expr.layOut.layOutUnary]
  rw [root]
  exact ⟨(starts_push _ _).trans starts, valuation.denotes _ _ starts.last⟩

theorem Valuation.binary {left : Array Node} {right : Array Node → Array Node} {node : Nat → Nat → Node}
    (valuation : Valuation σ whole ρ) (starts : Starts (Expr.layOut.layOutBinary node left right) whole) :
    Starts (right left) whole ∧ (node (left.size - 1) ((right left).size - 1)).Denotes σ ρ
      (ρ ((Expr.layOut.layOutBinary node left right).size - 1)) := by
  have root : (Expr.layOut.layOutBinary node left right).size - 1 = (right left).size := by
    simp [Expr.layOut.layOutBinary]
  rw [root]
  exact ⟨(starts_push _ _).trans starts, valuation.denotes _ _ starts.last⟩

mutual

/-- Wherever the nodes of an expression have values, the expression has one, and it is the one of the root. -/
theorem Valuation.layOut : ∀ (e : Expr) {arena : Array Node}, e.FiniteConstants → Valuation σ whole ρ →
    Starts (e.layOut arena) whole → e.Defined σ ∧ ρ ((e.layOut arena).size - 1) = e.real σ
  | .var v, arena, _, valuation, starts => by
      refine ⟨trivial, ?_⟩
      rw [Expr.layOut, Array.size_push, Nat.add_sub_cancel]
      exact (valuation.denotes _ _ starts.last).symm
  | .const c, arena, finite, valuation, starts => by
      obtain ⟨number, r, same⟩ := finite
      refine ⟨⟨r, same⟩, ?_⟩
      rw [Expr.layOut, Array.size_push, Nat.add_sub_cancel, Expr.real, same, EReal.toReal_coe]
      have encloses : (Interval.point c).Encloses (ρ arena.size) := valuation.denotes _ _ starts.last
      exact (Interval.encloses_point_iff number same).1 encloses
  | .neg a, arena, finite, valuation, starts | .sqr a, arena, finite, valuation, starts => by
      obtain ⟨operand, denotes⟩ := valuation.unary starts
      obtain ⟨defined, root⟩ := Valuation.layOut a finite valuation operand
      rw [Node.Denotes, root] at denotes
      exact ⟨defined, denotes.symm⟩
  | .sqrt a, arena, finite, valuation, starts => by
      obtain ⟨operand, denotes⟩ := valuation.unary starts
      obtain ⟨defined, root⟩ := Valuation.layOut a finite valuation operand
      rw [Node.Denotes, root] at denotes
      exact ⟨⟨defined, denotes.1⟩, denotes.2.symm⟩
  | .add a b, arena, finite, valuation, starts | .sub a b, arena, finite, valuation, starts
  | .mul a b, arena, finite, valuation, starts => by
      obtain ⟨operands, denotes⟩ := valuation.binary starts
      obtain ⟨definedA, rootA⟩ := Valuation.layOut a finite.1 valuation ((starts_layOut b _).trans operands)
      obtain ⟨definedB, rootB⟩ := Valuation.layOut b finite.2 valuation operands
      rw [Node.Denotes, rootA, rootB] at denotes
      exact ⟨⟨definedA, definedB⟩, denotes.symm⟩
  | .div a b, arena, finite, valuation, starts => by
      obtain ⟨operands, denotes⟩ := valuation.binary starts
      obtain ⟨definedA, rootA⟩ := Valuation.layOut a finite.1 valuation ((starts_layOut b _).trans operands)
      obtain ⟨definedB, rootB⟩ := Valuation.layOut b finite.2 valuation operands
      rw [Node.Denotes, rootA, rootB] at denotes
      exact ⟨⟨definedA, definedB, denotes.1⟩, denotes.2.symm⟩
  | .sum terms, arena, finite, valuation, starts => by
      have operands := (starts_push _ _).trans starts
      obtain ⟨defined, roots⟩ := Valuation.layOutAll terms finite valuation operands
      have denotes : ((Expr.layOutAll terms arena).1.map ρ).sum = ρ (Expr.layOutAll terms arena).2.size :=
        valuation.denotes _ _ starts.last
      have root : ((Expr.sum terms).layOut arena).size - 1 = (Expr.layOutAll terms arena).2.size := by
        simp [Expr.layOut]
      rw [root, ← denotes, roots]
      exact ⟨defined, rfl⟩

theorem Valuation.layOutAll : ∀ (es : List Expr) {arena : Array Node}, Expr.FiniteConstantsAll es →
    Valuation σ whole ρ → Starts (Expr.layOutAll es arena).2 whole →
      Expr.DefinedAll σ es ∧ (Expr.layOutAll es arena).1.map ρ = Expr.realAll σ es
  | [], _, _, _, _ => ⟨trivial, rfl⟩
  | e :: rest, arena, finite, valuation, starts => by
      obtain ⟨defined, root⟩ := Valuation.layOut e finite.1 valuation ((starts_layOutAll rest _).trans starts)
      obtain ⟨definedAll, roots⟩ := Valuation.layOutAll rest finite.2 valuation starts
      rw [Expr.realAll, ← roots, ← root]
      exact ⟨⟨defined, definedAll⟩, rfl⟩

end

end

/-! ## Formulas -/

/-- The nodes can be given values such that the root lies in the target. -/
def Formula.Holds (σ : Assignment) (f : Formula) : Prop :=
  ∃ ρ, Valuation σ f.arena ρ ∧ f.target.Encloses (ρ (f.arena.size - 1))

/-- A formula holds if its expression has a value in the target. -/
theorem Formula.holds_ofExpr {e : Expr} {target : Interval} (defined : e.Defined σ)
    (encloses : target.Encloses (e.real σ)) : (ofExpr e target).Holds σ := by
  obtain ⟨ρ, valuation, -, -, root⟩ := continues_layOut e defined (valuation_empty 0)
  exact ⟨ρ, valuation, root ▸ encloses⟩

/-- A formula with finite constants holds exactly if its expression has a value in the target. -/
theorem Formula.holds_ofExpr_iff {e : Expr} {target : Interval} (finite : e.FiniteConstants) :
    (ofExpr e target).Holds σ ↔ e.Defined σ ∧ target.Encloses (e.real σ) := by
  constructor
  · rintro ⟨ρ, valuation, encloses⟩
    obtain ⟨defined, root⟩ := Valuation.layOut e finite valuation (.refl _)
    exact ⟨defined, root ▸ encloses⟩
  · rintro ⟨defined, encloses⟩
    exact holds_ofExpr defined encloses

/-- A total lies in the target exactly if the values of its terms add up to a number in it. -/
theorem Formula.holds_total_iff {terms : List Expr} {target : Interval} (finite : ∀ e ∈ terms, e.FiniteConstants)
    (defined : ∀ e ∈ terms, e.Defined σ) :
    (ofExpr (.total terms) target).Holds σ ↔ target.Encloses (((terms.map (Expr.real σ)).sum : ℝ) : EReal) := by
  rw [holds_ofExpr_iff (Expr.finiteConstants_total finite), Expr.real_total]
  exact and_iff_right (Expr.defined_total defined)

end StatBounds
