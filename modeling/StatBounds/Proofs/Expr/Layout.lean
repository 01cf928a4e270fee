import StatBounds.Proofs.Expr.Meaning

/-! # How an expression is laid out

The arena of an expression holds one node for each of its subexpressions, operands before operators. Each node names the
positions of its operands, and no two nodes name the same one, so the arena is the tree again. Its evaluation from left
to right gives each position the interval of the subexpression that stands there.
-/

namespace StatBounds

namespace Expr

/-! ## Expressions through their operands -/

/-- The immediate subexpressions, from left to right. -/
def operands : Expr → List Expr
  | var _ | const _ => []
  | neg a | sqr a | sqrt a => [a]
  | add a b | sub a b | mul a b | div a b => [a, b]
  | sum terms => terms

/-- The node of an expression with its operands at given positions. -/
def node : Expr → List Nat → Node
  | var v, _ => .var v
  | const c, _ => .const (.point c)
  | neg _, ps => .neg (ps.getD 0 0)
  | sqr _, ps => .sqr (ps.getD 0 0)
  | sqrt _, ps => .sqrt (ps.getD 0 0)
  | add _ _, ps => .add (ps.getD 0 0) (ps.getD 1 0)
  | sub _ _, ps => .sub (ps.getD 0 0) (ps.getD 1 0)
  | mul _ _, ps => .mul (ps.getD 0 0) (ps.getD 1 0)
  | div _ _, ps => .div (ps.getD 0 0) (ps.getD 1 0)
  | sum _, ps => .sum ps

mutual

/-- All subexpressions, operands before operators and the expression itself last. -/
def subtrees : Expr → List Expr
  | var v => [var v]
  | const c => [const c]
  | neg a => a.subtrees ++ [neg a]
  | sqr a => a.subtrees ++ [sqr a]
  | sqrt a => a.subtrees ++ [sqrt a]
  | add a b => a.subtrees ++ b.subtrees ++ [add a b]
  | sub a b => a.subtrees ++ b.subtrees ++ [sub a b]
  | mul a b => a.subtrees ++ b.subtrees ++ [mul a b]
  | div a b => a.subtrees ++ b.subtrees ++ [div a b]
  | sum terms => subtreesAll terms ++ [sum terms]

def subtreesAll : List Expr → List Expr
  | [] => []
  | e :: rest => e.subtrees ++ subtreesAll rest

end

mutual

/-- The interval of an expression, from those of its variables. -/
def evaluate (bounds : Var → Interval) : Expr → Interval
  | var v => bounds v
  | const c => .point c
  | neg a => -a.evaluate bounds
  | sqr a => (a.evaluate bounds).sqr
  | sqrt a => (a.evaluate bounds).sqrt
  | add a b => a.evaluate bounds + b.evaluate bounds
  | sub a b => a.evaluate bounds - b.evaluate bounds
  | mul a b => a.evaluate bounds * b.evaluate bounds
  | div a b => a.evaluate bounds / b.evaluate bounds
  | sum terms => Interval.sum (evaluateAll bounds terms)

/-- The intervals of several expressions. -/
def evaluateAll (bounds : Var → Interval) : List Expr → List Interval
  | [] => []
  | e :: rest => e.evaluate bounds :: evaluateAll bounds rest

end

def descendants (e : Expr) : List Expr :=
  subtreesAll e.operands

variable {bounds : Var → Interval} {e : Expr} {es : List Expr} {arena whole : Array Node}

theorem subtrees_eq (e : Expr) : e.subtrees = e.descendants ++ [e] := by
  cases e <;> simp [subtrees, descendants, operands, subtreesAll]

theorem evaluateAll_eq_map (es : List Expr) : evaluateAll bounds es = es.map (evaluate bounds) := by
  induction es with
  | nil => rfl
  | cons e rest ih => rw [evaluateAll, ih, List.map_cons]

theorem sizeOf_operand_lt {a : Expr} (member : a ∈ e.operands) : sizeOf a < sizeOf e := by
  cases e with
  | var v | const c => cases member
  | sum terms =>
      have := List.sizeOf_lt_of_mem (show a ∈ terms from member)
      simp only [sum.sizeOf_spec]
      omega
  | _ =>
      simp only [operands, List.mem_cons, List.not_mem_nil, or_false] at member
      rcases member with rfl | rfl <;> simp <;> omega

theorem operands_induction {motive : Expr → Prop} (step : ∀ e, (∀ a ∈ e.operands, motive a) → motive e) (e : Expr) :
    motive e :=
  step e fun a _ => operands_induction step a
termination_by sizeOf e
decreasing_by exact sizeOf_operand_lt ‹_›

theorem layOut_eq (e : Expr) (arena : Array Node) :
    e.layOut arena = (layOutAll e.operands arena).2.push (e.node (layOutAll e.operands arena).1) := by
  cases e <;> rfl

theorem children_node {ps : List Nat} (each : ps.length = e.operands.length) : (e.node ps).children = ps := by
  cases e with
  | var v | const c => exact (List.length_eq_zero_iff.1 each).symm
  | neg a | sqr a | sqrt a =>
      obtain ⟨p, rfl⟩ := List.length_eq_one_iff.1 each
      rfl
  | add a b | sub a b | mul a b | div a b =>
      obtain ⟨p, q, rfl⟩ := List.length_eq_two.1 each
      rfl
  | sum terms => rfl

/-- A node is evaluated to the interval of its expression if its operands are. -/
theorem evaluate_node {ps : List Nat} {values : Array Interval}
    (same : ps.map (valueAt values) = e.operands.map (evaluate bounds)) :
    (e.node ps).evaluate bounds values = e.evaluate bounds := by
  cases e with
  | var v | const c => rfl
  | neg a | sqr a | sqrt a =>
      obtain ⟨p, rfl, found⟩ := List.map_eq_singleton_iff.1 same
      simp only [node, Node.evaluate, evaluate, List.getD_cons_zero, found]
  | add a b | sub a b | mul a b | div a b =>
      obtain ⟨p, qs, rfl, first, rest⟩ := List.map_eq_cons_iff.1 same
      obtain ⟨q, rfl, second⟩ := List.map_eq_singleton_iff.1 rest
      simp only [node, Node.evaluate, evaluate, List.getD_cons_zero, List.getD_cons_succ, first, second]
  | sum terms => rw [node, Node.evaluate, same, evaluate, evaluateAll_eq_map]; rfl

/-! ## Positions -/

/-- The positions of the roots of expressions that are laid out one after the other. -/
def rootsFrom : Nat → List Expr → List Nat
  | _, [] => []
  | start, e :: rest => (start + e.descendants.length) :: rootsFrom (start + e.descendants.length + 1) rest

theorem length_subtrees (e : Expr) : e.subtrees.length = e.descendants.length + 1 := by
  rw [subtrees_eq, List.length_append, List.length_singleton]

theorem length_rootsFrom (start : Nat) (es : List Expr) : (rootsFrom start es).length = es.length := by
  induction es generalizing start with
  | nil => rfl
  | cons e rest ih => rw [rootsFrom, List.length_cons, List.length_cons, ih]

theorem layOutAll_eq (each : ∀ e ∈ es, ∀ arena, (e.layOut arena).size = arena.size + e.descendants.length + 1)
    (arena : Array Node) : (layOutAll es arena).1 = rootsFrom arena.size es ∧
      (layOutAll es arena).2.size = arena.size + (subtreesAll es).length := by
  induction es generalizing arena with
  | nil => exact ⟨rfl, rfl⟩
  | cons e rest ih =>
      have size := each e (by simp) arena
      obtain ⟨roots, total⟩ := ih (fun a member => each a (by simp [member])) (e.layOut arena)
      rw [size] at roots total
      rw [layOutAll]
      dsimp only
      rw [roots, total, size, rootsFrom, subtreesAll, List.length_append, length_subtrees]
      exact ⟨by rw [Nat.add_sub_cancel], by omega⟩

theorem size_layOut (e : Expr) (arena : Array Node) :
    (e.layOut arena).size = arena.size + e.descendants.length + 1 := by
  induction e using operands_induction generalizing arena with
  | step e ih => rw [layOut_eq, Array.size_push, (layOutAll_eq ih arena).2, descendants]

theorem roots_layOutAll (es : List Expr) (arena : Array Node) : (layOutAll es arena).1 = rootsFrom arena.size es :=
  (layOutAll_eq (fun a _ => size_layOut a) arena).1

theorem size_layOutAll (es : List Expr) (arena : Array Node) :
    (layOutAll es arena).2.size = arena.size + (subtreesAll es).length :=
  (layOutAll_eq (fun a _ => size_layOut a) arena).2

theorem layOut_node (e : Expr) (arena : Array Node) :
    e.layOut arena = (layOutAll e.operands arena).2.push (e.node (rootsFrom arena.size e.operands)) := by
  rw [layOut_eq, roots_layOutAll]

theorem children_root (e : Expr) (start : Nat) :
    (e.node (rootsFrom start e.operands)).children = rootsFrom start e.operands :=
  children_node (length_rootsFrom start e.operands)

theorem mem_rootsFrom {start p : Nat} (member : p ∈ rootsFrom start es) : p < start + (subtreesAll es).length := by
  induction es generalizing start with
  | nil => cases member
  | cons e rest ih =>
      rw [subtreesAll, List.length_append, length_subtrees]
      rcases List.mem_cons.1 member with rfl | later
      · omega
      · have := ih later
        omega

/-- What holds of expressions that are laid out behind others is proved for one expression after the other, and for an
    expression from its operands. -/
theorem layOut_induction (motive : Expr → Array Node → Prop) (motiveAll : List Expr → Array Node → Prop)
    (nil : ∀ arena, motiveAll [] arena)
    (cons : ∀ e rest arena, motive e arena → motiveAll rest (e.layOut arena) → motiveAll (e :: rest) arena)
    (step : ∀ e arena, motiveAll e.operands arena → motive e arena) (e : Expr) (arena : Array Node) :
    motive e arena := by
  induction e using operands_induction generalizing arena with
  | step e ih =>
      have all (es : List Expr) (each : ∀ a ∈ es, ∀ arena, motive a arena) (arena : Array Node) :
          motiveAll es arena := by
        induction es generalizing arena with
        | nil => exact nil arena
        | cons a rest ihRest =>
            exact cons a rest arena (each a (by simp) arena)
              (ihRest (fun b member => each b (by simp [member])) _)
      exact step e arena (all e.operands ih arena)

/-! ## The tree in the arena -/

/-- An expression is found again by following the positions of operands from a position. -/
inductive StandsAt (arena : Array Node) : Expr → Nat → Prop
  | intro {e : Expr} {p : Nat} {ps : List Nat} (found : arena[p]? = some (e.node ps))
      (operands : List.Forall₂ (StandsAt arena) e.operands ps) : StandsAt arena e p

/-- Every subexpression stands at its place in the order of the subexpressions. -/
theorem standsAt_layOut (e : Expr) (arena : Array Node) : ∀ whole, Starts (e.layOut arena) whole →
    ∀ i s, e.subtrees[i]? = some s → StandsAt whole s (arena.size + i) := by
  refine layOut_induction (fun e arena => ∀ whole, Starts (e.layOut arena) whole →
      ∀ i s, e.subtrees[i]? = some s → StandsAt whole s (arena.size + i))
    (fun es arena => ∀ whole, Starts (layOutAll es arena).2 whole →
      (∀ i s, (subtreesAll es)[i]? = some s → StandsAt whole s (arena.size + i)) ∧
        List.Forall₂ (StandsAt whole) es (rootsFrom arena.size es)) ?_ ?_ ?_ e arena
  · exact fun arena whole _ => ⟨by simp [subtreesAll], .nil⟩
  · intro e rest arena here later whole starts
    have here := here whole ((starts_layOutAll rest _).trans starts)
    obtain ⟨others, roots⟩ := later whole starts
    rw [size_layOut] at others roots
    have root : e.subtrees[e.descendants.length]? = some e := by rw [subtrees_eq]; simp
    refine ⟨fun i s found => ?_, .cons (here _ e root) roots⟩
    rw [subtreesAll, List.getElem?_append] at found
    split_ifs at found with inside
    · exact here i s found
    · have := others _ s found
      rw [length_subtrees] at this inside
      convert this using 1
      omega
  · intro e arena below whole starts i s found
    rw [layOut_node] at starts
    obtain ⟨others, roots⟩ := below whole ((starts_push _ _).trans starts)
    rw [subtrees_eq, List.getElem?_append] at found
    split_ifs at found with inside
    · exact others i s found
    · obtain ⟨-, rfl⟩ : i - e.descendants.length = 0 ∧ e = s := by
        cases last : i - e.descendants.length with
        | zero => simpa [last] using found
        | succ k => simp [last] at found
      have position : arena.size + i = (layOutAll e.operands arena).2.size := by
        have := (List.getElem?_eq_some_iff.1 found).1
        rw [size_layOutAll, ← descendants]
        simp only [List.length_singleton] at this
        omega
      rw [position]
      exact .intro starts.last roots

/-- The operands of every node stand before it. -/
def ChildrenEarlier (arena : Array Node) : Prop :=
  ∀ (p : Nat) (node : Node), arena[p]? = some node → ∀ child ∈ node.children, child < p

theorem ChildrenEarlier.push {n : Node} (earlier : ChildrenEarlier arena)
    (inside : ∀ child ∈ n.children, child < arena.size) : ChildrenEarlier (arena.push n) := by
  intro p other found
  rw [Array.getElem?_push] at found
  split_ifs at found with last
  · obtain rfl := Option.some.inj found
    exact last ▸ inside
  · exact earlier p other found

theorem childrenEarlier_layOut (e : Expr) (arena : Array Node) :
    ChildrenEarlier arena → ChildrenEarlier (e.layOut arena) := by
  refine layOut_induction (fun e arena => ChildrenEarlier arena → ChildrenEarlier (e.layOut arena))
    (fun es arena => ChildrenEarlier arena → ChildrenEarlier (layOutAll es arena).2) ?_ ?_ ?_ e arena
  · exact fun _ earlier => earlier
  · exact fun e rest arena here later earlier => later (here earlier)
  · intro e arena below earlier
    rw [layOut_node]
    refine (below earlier).push fun child member => ?_
    rw [children_root] at member
    rw [size_layOutAll]
    exact mem_rootsFrom member

/-- The nodes of an expression name each position before the root once, and no other one. -/
theorem perm_children_layOut (e : Expr) (arena : Array Node) :
    ((e.layOut arena).toList.flatMap Node.children).Perm
      (arena.toList.flatMap Node.children ++ List.range' arena.size e.descendants.length) := by
  refine layOut_induction
    (fun e arena => ((e.layOut arena).toList.flatMap Node.children).Perm
      (arena.toList.flatMap Node.children ++ List.range' arena.size e.descendants.length))
    (fun es arena =>
      ((layOutAll es arena).2.toList.flatMap Node.children ++ rootsFrom arena.size es).Perm
        (arena.toList.flatMap Node.children ++ List.range' arena.size (subtreesAll es).length)) ?_ ?_ ?_ e arena
  · exact fun arena => .refl _
  · intro e rest arena here later
    rw [size_layOut] at later
    have positions : List.range' arena.size (subtreesAll (e :: rest)).length =
        List.range' arena.size e.descendants.length ++ ((arena.size + e.descendants.length) ::
          List.range' (arena.size + e.descendants.length + 1) (subtreesAll rest).length) := by
      rw [subtreesAll, List.length_append, length_subtrees, Nat.add_assoc, ← List.range'_append_1,
        Nat.add_comm 1, List.range'_succ]
    rw [rootsFrom, positions]
    -- The root is the one position of the expression that is left for the node above.
    refine List.perm_middle.trans (((later.trans (here.append_right _)).cons _).trans ?_)
    rw [List.append_assoc, ← List.append_assoc, ← List.append_assoc]
    exact List.perm_middle.symm
  · intro e arena below
    rw [layOut_node, Array.toList_push, List.flatMap_append, List.flatMap_singleton, children_root]
    exact below

/-- Every position before the root is named once by one node, and the root by none. -/
theorem existsUnique_parent (e : Expr) :
    (∀ child, child + 1 < e.arena.size → ∃! p : Nat, ∃ n : Node, e.arena[p]? = some n ∧ child ∈ n.children) ∧
      ∀ n ∈ e.arena, n.children.Nodup ∧ e.arena.size - 1 ∉ n.children := by
  have named : (e.arena.toList.flatMap Node.children).Perm (List.range (e.arena.size - 1)) := by
    have perm := perm_children_layOut e #[]
    rw [List.range_eq_range', arena, size_layOut]
    simpa using perm
  have listed {child : Nat} : child < e.arena.size - 1 ↔ ∃ n ∈ e.arena, child ∈ n.children := by
    rw [← List.mem_range, ← named.mem_iff, List.mem_flatMap]
    simp only [Array.mem_toList_iff]
  obtain ⟨once, apart⟩ := List.nodup_flatMap.1 (named.nodup_iff.2 List.nodup_range)
  refine ⟨fun child small => ?_, fun n member => ⟨?_, fun named => ?_⟩⟩
  · obtain ⟨n, member, named⟩ := listed.1 (Nat.lt_sub_of_add_lt small)
    obtain ⟨p, found⟩ := Array.getElem?_of_mem member
    refine ⟨p, ⟨n, found, named⟩, ?_⟩
    rintro q ⟨other, foundOther, namedOther⟩
    -- Two nodes that name the same position would stand at different places of the list.
    have disjoint {i j : Nat} {a b : Node} (foundA : e.arena[i]? = some a) (foundB : e.arena[j]? = some b)
        (less : i < j) (inA : child ∈ a.children) (inB : child ∈ b.children) : False := by
      obtain ⟨insideA, rfl⟩ := Array.getElem?_eq_some_iff.1 foundA
      obtain ⟨insideB, rfl⟩ := Array.getElem?_eq_some_iff.1 foundB
      exact (List.pairwise_iff_getElem.1 apart) i j insideA insideB less inA inB
    rcases lt_trichotomy q p with less | same | more
    · exact (disjoint foundOther found less namedOther named).elim
    · exact same
    · exact (disjoint found foundOther more named namedOther).elim
  · exact once n (Array.mem_toList_iff.2 member)
  · exact lt_irrefl _ (listed.2 ⟨n, member, named⟩)

/-! ## Evaluation -/

@[simp] theorem valueAt_append (left right : List Interval) (x : Interval) :
    valueAt (left ++ x :: right).toArray left.length = x := by
  simp [valueAt]

/-- The intervals of expressions that are laid out one after the other, where the roots have given ones and what is
    below them is evaluated. -/
def segments (bounds : Var → Interval) : List Expr → List Interval → List Interval
  | e :: rest, x :: xs => e.descendants.map (evaluate bounds) ++ x :: segments bounds rest xs
  | _, _ => []

theorem segments_evaluated (es : List Expr) :
    segments bounds es (es.map (evaluate bounds)) = (subtreesAll es).map (evaluate bounds) := by
  induction es with
  | nil => rfl
  | cons e rest ih => simp [segments, subtreesAll, subtrees_eq, ih]

theorem map_valueAt_roots (bounds : Var → Interval) {xs : List Interval} (each : xs.length = es.length)
    (left right : List Interval) :
    (rootsFrom left.length es).map (valueAt (left ++ segments bounds es xs ++ right).toArray) = xs := by
  induction es generalizing left xs with
  | nil => exact (List.length_eq_zero_iff.1 each).symm
  | cons e rest ih =>
      cases xs with
      | nil => cases each
      | cons x xs =>
          let before := left ++ e.descendants.map (evaluate bounds)
          have here : left ++ segments bounds (e :: rest) (x :: xs) ++ right =
              before ++ x :: (segments bounds rest xs ++ right) := by
            simp [before, segments]
          have later : left ++ segments bounds (e :: rest) (x :: xs) ++ right =
              (before ++ [x]) ++ segments bounds rest xs ++ right := by
            simp [before, segments]
          have root : left.length + e.descendants.length = before.length := by simp [before]
          have next : before.length + 1 = (before ++ [x]).length := by simp
          rw [rootsFrom, List.map_cons, root]
          congr 1
          · rw [here, valueAt_append]
          · rw [later, next]
            exact ih (Nat.succ_inj.1 each) _

theorem evaluateArena_push (bounds : Var → Interval) (arena : Array Node) (n : Node) :
    evaluateArena bounds (arena.push n) =
      (evaluateArena bounds arena).push (n.evaluate bounds (evaluateArena bounds arena)) := by
  simp only [evaluateArena, Array.foldl_push]

theorem size_evaluateArena (bounds : Var → Interval) (arena : Array Node) :
    (evaluateArena bounds arena).size = arena.size := by
  refine Array.foldl_induction (fun i (values : Array Interval) => values.size = i) rfl fun i values size => ?_
  rw [Array.size_push, size]

theorem evaluateArena_layOut (bounds : Var → Interval) (e : Expr) (arena : Array Node) :
    (evaluateArena bounds (e.layOut arena)).toList =
      (evaluateArena bounds arena).toList ++ e.subtrees.map (evaluate bounds) := by
  refine layOut_induction
    (fun e arena => (evaluateArena bounds (e.layOut arena)).toList =
      (evaluateArena bounds arena).toList ++ e.subtrees.map (evaluate bounds))
    (fun es arena => (evaluateArena bounds (layOutAll es arena).2).toList =
      (evaluateArena bounds arena).toList ++ (subtreesAll es).map (evaluate bounds)) ?_ ?_ ?_ e arena
  · simp [layOutAll, subtreesAll]
  · intro e rest arena here later
    rw [layOutAll]
    dsimp only
    rw [later, here, subtreesAll, List.map_append, List.append_assoc]
  · intro e arena below
    have operands : (rootsFrom arena.size e.operands).map
        (valueAt (evaluateArena bounds (layOutAll e.operands arena).2)) = e.operands.map (evaluate bounds) := by
      have each : (e.operands.map (evaluate bounds)).length = e.operands.length := List.length_map _
      have roots := map_valueAt_roots bounds each (evaluateArena bounds arena).toList []
      rwa [segments_evaluated, List.append_nil, ← below, Array.toArray_toList, Array.length_toList,
        size_evaluateArena] at roots
    rw [layOut_node, evaluateArena_push, Array.toList_push, below, evaluate_node operands, subtrees_eq, List.map_append,
      List.append_assoc]
    rfl

/-! ## Variables -/

/-- The variable, if an expression is one. -/
def var? : Expr → Option Var
  | var v => some v
  | _ => none

mutual

theorem occurrences_eq : ∀ e : Expr, e.occurrences = e.subtrees.filterMap var?
  | var v | const c => rfl
  | neg a | sqr a | sqrt a => by simp [occurrences, subtrees, occurrences_eq a, var?]
  | add a b | sub a b | mul a b | div a b => by
      simp [occurrences, subtrees, occurrences_eq a, occurrences_eq b, var?]
  | sum terms => by simp [occurrences, subtrees, occurrencesAll_eq terms, var?]

theorem occurrencesAll_eq : ∀ es : List Expr, occurrencesAll es = (subtreesAll es).filterMap var?
  | [] => rfl
  | e :: rest => by
      rw [occurrencesAll, occurrences_eq e, occurrencesAll_eq rest, subtreesAll, List.filterMap_append]

end

end Expr

section

variable {α : Type} [DecidableEq α]

/-- What a filter keeps stays in order. -/
theorem idxOf_lt_of_filter (keep : α → Bool) {a b : α} (keepA : keep a = true) (keepB : keep b = true) (as : List α)
    (less : (as.filter keep).idxOf a < (as.filter keep).idxOf b) : as.idxOf a < as.idxOf b := by
  induction as with
  | nil => simp at less
  | cons c as ih =>
      by_cases kept : keep c = true
      · rw [List.filter_cons_of_pos kept] at less
        by_cases first : c = a
        · subst first
          by_cases second : c = b
          · simp [second] at less
          · simp [List.idxOf_cons_ne _ second]
        · by_cases second : c = b
          · simp [second] at less
          · rw [List.idxOf_cons_ne _ first, List.idxOf_cons_ne _ second] at less ⊢
            exact Nat.succ_lt_succ (ih (Nat.lt_of_succ_lt_succ less))
      · have first : c ≠ a := fun same => kept (same ▸ keepA)
        have second : c ≠ b := fun same => kept (same ▸ keepB)
        rw [List.filter_cons_of_neg kept] at less
        rw [List.idxOf_cons_ne _ first, List.idxOf_cons_ne _ second]
        exact Nat.succ_lt_succ (ih less)

/-- Distinct elements are listed in the order in which they are first met. -/
theorem pairwise_eraseDups : ∀ as : List α, as.eraseDups.Pairwise fun a b => as.idxOf a < as.idxOf b
  | [] => by simp
  | c :: as => by
      have others {a : α} (member : a ∈ (as.filter fun b => !b == c).eraseDups) : c ≠ a ∧ (!a == c) = true := by
        have differs := (List.mem_filter.1 (List.mem_eraseDups.1 member)).2
        exact ⟨fun same => by simp [same] at differs, differs⟩
      rw [List.eraseDups_cons, List.pairwise_cons]
      refine ⟨fun a member => ?_, ?_⟩
      · rw [List.idxOf_cons_self, List.idxOf_cons_ne _ (others member).1]
        exact Nat.succ_pos _
      · refine (pairwise_eraseDups (as.filter fun b => !b == c)).imp_of_mem fun first second less => ?_
        have ⟨apartA, keepA⟩ := others first
        have ⟨apartB, keepB⟩ := others second
        rw [List.idxOf_cons_ne _ apartA, List.idxOf_cons_ne _ apartB]
        exact Nat.succ_lt_succ (idxOf_lt_of_filter (fun b => !b == c) keepA keepB as less)
termination_by as => as.length
decreasing_by exact Nat.lt_succ_of_le (List.length_filter_le _ _)

end

end StatBounds
