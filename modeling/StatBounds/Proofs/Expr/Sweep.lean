import StatBounds.Proofs.Expr.Layout
import StatBounds.Proofs.Store.Consistency

/-! # From the root to the leaves

A formula narrows the nodes of its arena from right to left. Each node comes after its operands, and what it leaves of
them lies in a part of the arena that no other node touches before them, so the result is that of narrowing the tree
from the root to the leaves, each operand after the expression that it belongs to.
-/

namespace StatBounds

/-- What two intervals have in common, if anything. -/
def Interval.meet? (i onto : Interval) : Option Interval :=
  if (i.intersect onto).isEmpty then none else some (i.intersect onto)

namespace Expr

mutual

/-- Narrow an expression to an interval: each operand is narrowed to what can produce it, a second one after the first,
    and then what is below the operands. The result lists what is left of each subexpression, operands before operators,
    unless nothing is left of one. -/
def project? (bounds : Var → Interval) : Expr → Interval → Option (List (Expr × Interval))
  | var v, i => some [(var v, i)]
  | const c, i => some [(const c, i)]
  | neg a, i => do
      let x ← (a.evaluate bounds).meet? (-i)
      return (← a.project? bounds x) ++ [(neg a, i)]
  | sqr a, i => do
      let x ← (a.evaluate bounds).meet? ((a.evaluate bounds).sqrPreimage i)
      return (← a.project? bounds x) ++ [(sqr a, i)]
  | sqrt a, i => do
      let x ← (a.evaluate bounds).meet? (i.intersect .nonNegative).sqr
      return (← a.project? bounds x) ++ [(sqrt a, i)]
  | add a b, i => do
      let x ← (a.evaluate bounds).meet? (i - b.evaluate bounds)
      let y ← (b.evaluate bounds).meet? (i - x)
      return (← a.project? bounds x) ++ (← b.project? bounds y) ++ [(add a b, i)]
  | sub a b, i => do
      let x ← (a.evaluate bounds).meet? (i + b.evaluate bounds)
      let y ← (b.evaluate bounds).meet? (x - i)
      return (← a.project? bounds x) ++ (← b.project? bounds y) ++ [(sub a b, i)]
  | mul a b, i => do
      let x ← (a.evaluate bounds).meet? (i / b.evaluate bounds)
      let y ← (b.evaluate bounds).meet? (i / x)
      return (← a.project? bounds x) ++ (← b.project? bounds y) ++ [(mul a b, i)]
  | div a b, i => do
      let x ← (a.evaluate bounds).meet? (i * b.evaluate bounds)
      let y ← (b.evaluate bounds).meet? (x / i)
      return (← a.project? bounds x) ++ (← b.project? bounds y) ++ [(div a b, i)]
  | sum terms, i => do
      let values := evaluateAll bounds terms
      let xs ← (values.zip (Interval.sumsOfOthers values)).mapM fun (value, rest) => value.meet? (i - rest)
      return (← projectAll? bounds terms xs) ++ [(sum terms, i)]

def projectAll? (bounds : Var → Interval) : List Expr → List Interval → Option (List (Expr × Interval))
  | e :: rest, x :: xs => do return (← e.project? bounds x) ++ (← projectAll? bounds rest xs)
  | _, _ => some []

end

/-- What is left of the variable leaves when the value of an expression is to lie in a target, from left to right. -/
def narrowed? (bounds : Var → Interval) (e : Expr) (target : Interval) : Option (List (Var × Interval)) := do
  let parts ← e.project? bounds (← (e.evaluate bounds).meet? target)
  return parts.filterMap fun (part, x) => part.var?.map fun v => (v, x)

def projectOperands? (bounds : Var → Interval) : Expr → Interval → Option (List Interval)
  | var _, _ | const _, _ => some []
  | neg a, i => do return [← (a.evaluate bounds).meet? (-i)]
  | sqr a, i => do return [← (a.evaluate bounds).meet? ((a.evaluate bounds).sqrPreimage i)]
  | sqrt a, i => do return [← (a.evaluate bounds).meet? (i.intersect .nonNegative).sqr]
  | add a b, i => do
      let x ← (a.evaluate bounds).meet? (i - b.evaluate bounds)
      return [x, ← (b.evaluate bounds).meet? (i - x)]
  | sub a b, i => do
      let x ← (a.evaluate bounds).meet? (i + b.evaluate bounds)
      return [x, ← (b.evaluate bounds).meet? (x - i)]
  | mul a b, i => do
      let x ← (a.evaluate bounds).meet? (i / b.evaluate bounds)
      return [x, ← (b.evaluate bounds).meet? (i / x)]
  | div a b, i => do
      let x ← (a.evaluate bounds).meet? (i * b.evaluate bounds)
      return [x, ← (b.evaluate bounds).meet? (x / i)]
  | sum terms, i => do
      let values := evaluateAll bounds terms
      (values.zip (Interval.sumsOfOthers values)).mapM fun (value, rest) => value.meet? (i - rest)

variable {bounds : Var → Interval} {e : Expr} {es : List Expr} {x i : Interval} {xs : List Interval}

/-- The operands are narrowed first, and then what is below them. -/
theorem project?_eq (bounds : Var → Interval) (e : Expr) (i : Interval) :
    e.project? bounds i = (e.projectOperands? bounds i) >>= fun xs =>
      (projectAll? bounds e.operands xs) >>= fun parts => some (parts ++ [(e, i)]) := by
  cases e <;> simp [project?, projectOperands?, projectAll?, operands, Option.bind_assoc]

theorem length_of_mapM {α β : Type} {f : α → Option β} {as : List α} {bs : List β} (all : as.mapM f = some bs) :
    bs.length = as.length := by
  induction as generalizing bs with
  | nil =>
      obtain rfl := Option.some.inj all
      rfl
  | cons a as ih =>
      rw [List.mapM_cons] at all
      obtain ⟨b, -, rest⟩ := Option.bind_eq_some_iff.1 all
      obtain ⟨bs, others, same⟩ := Option.bind_eq_some_iff.1 rest
      obtain rfl := Option.some.inj same
      rw [List.length_cons, List.length_cons, ih others]

theorem length_sumsOfOthers (parts : List Interval) : (Interval.sumsOfOthers parts).length = parts.length := by
  have before (acc : Interval) (parts : List Interval) : (Interval.sumsBefore acc parts).length = parts.length := by
    induction parts generalizing acc with
    | nil => rfl
    | cons part parts ih => rw [Interval.sumsBefore, List.length_cons, List.length_cons, ih]
  have after (parts : List Interval) : (Interval.sumsAfter parts).length = parts.length := by
    induction parts with
    | nil => rfl
    | cons part parts ih => rw [Interval.sumsAfter_cons, List.length_cons, List.length_cons, ih]
  rw [Interval.sumsOfOthers, List.length_zipWith, before, after, Nat.min_self]

theorem length_of_projectOperands? (narrowed : e.projectOperands? bounds i = some xs) :
    xs.length = e.operands.length := by
  cases e with
  | var v | const c =>
      obtain rfl := Option.some.inj narrowed
      rfl
  | neg a | sqr a | sqrt a =>
      obtain ⟨x, -, same⟩ := Option.bind_eq_some_iff.1 narrowed
      obtain rfl := Option.some.inj same
      rfl
  | add a b | sub a b | mul a b | div a b =>
      obtain ⟨x, -, rest⟩ := Option.bind_eq_some_iff.1 narrowed
      obtain ⟨y, -, same⟩ := Option.bind_eq_some_iff.1 rest
      obtain rfl := Option.some.inj same
      rfl
  | sum terms =>
      have each := length_of_mapM narrowed
      rwa [List.length_zip, length_sumsOfOthers, Nat.min_self, evaluateAll_eq_map, List.length_map] at each

/-! ## One node -/

theorem project?_append (left right : List Interval) (x onto : Interval) :
    StatBounds.project? (left ++ x :: right).toArray left.length onto =
      (x.meet? onto).map fun y => (left ++ y :: right).toArray := by
  unfold StatBounds.project? Interval.meet?
  rw [valueAt_append]
  dsimp only
  split_ifs
  · rfl
  · simp

theorem slots (left between right : List Interval) (x y onto : Interval) :
    let values := (left ++ x :: (between ++ y :: right)).toArray
    let p := left.length
    let q := left.length + 1 + between.length
    valueAt values p = x ∧ valueAt values q = y ∧
      (StatBounds.project? values p onto =
        (x.meet? onto).map fun x => (left ++ x :: (between ++ y :: right)).toArray) ∧
      StatBounds.project? values q onto =
        (y.meet? onto).map fun y => (left ++ x :: (between ++ y :: right)).toArray := by
  intro values p q
  have same (y : Interval) : left ++ x :: (between ++ y :: right) = (left ++ x :: between) ++ y :: right := by simp
  have second : q = (left ++ x :: between).length := by simp [q]; omega
  refine ⟨valueAt_append left _ x, ?_, project?_append left _ x onto, ?_⟩
  · simp only [values, same, second, valueAt_append]
  · simp only [values, same, second, project?_append]

/-- The terms of a sum are narrowed one after the other. What the others add up to has been computed before. -/
theorem foldlM_project? (i : Interval) {others : List Interval} (each : others.length = es.length)
    (before after : List Interval) :
    ((rootsFrom before.length es).zip others).foldlM (fun values (p, rest) => StatBounds.project? values p (i - rest))
        (before ++ segments bounds es (es.map (evaluate bounds)) ++ after).toArray =
      (((es.map (evaluate bounds)).zip others).mapM fun (value, rest) => Interval.meet? value (i - rest)).map fun xs =>
        (before ++ segments bounds es xs ++ after).toArray := by
  induction es generalizing others before with
  | nil => simp [rootsFrom]
  | cons e terms ih =>
      cases others with
      | nil => cases each
      | cons other others =>
          let left := before ++ e.descendants.map (evaluate bounds)
          have here (x : Interval) (xs : List Interval) : before ++ segments bounds (e :: terms) (x :: xs) ++ after =
              left ++ x :: (segments bounds terms xs ++ after) := by simp [left, segments]
          have later (x : Interval) (xs : List Interval) : left ++ x :: (segments bounds terms xs ++ after) =
              (left ++ [x]) ++ segments bounds terms xs ++ after := by simp
          have root : before.length + e.descendants.length = left.length := by simp [left]
          have next (x : Interval) : left.length + 1 = (left ++ [x]).length := by simp
          rw [rootsFrom, root, List.zip_cons_cons, List.foldlM_cons, List.map_cons, here, List.zip_cons_cons,
            List.mapM_cons]
          dsimp only
          rw [project?_append]
          simp only [Option.map_eq_bind, Option.bind_eq_bind, Option.pure_def, Option.bind_assoc, Option.bind_some,
            Function.comp_def, here]
          refine congrArg _ (funext fun x => ?_)
          rw [later, next x, ih (Nat.succ_inj.1 each)]
          simp only [Option.map_eq_bind, Function.comp_def, later]

/-- A node narrows the intervals of its operands, where they stand, and nothing else. -/
theorem projectChildren?_node (e : Expr) (i : Interval) (before after : List Interval) :
    (e.node (rootsFrom before.length e.operands)).projectChildren?
        (before ++ segments bounds e.operands (e.operands.map (evaluate bounds)) ++ after).toArray i =
      (e.projectOperands? bounds i).map fun xs => (before ++ segments bounds e.operands xs ++ after).toArray := by
  cases e with
  | var v | const c => simp [node, Node.projectChildren?, projectOperands?, operands, segments]
  | neg a | sqr a | sqrt a =>
      have same (x : Interval) : before ++ segments bounds [a] [x] ++ after =
          (before ++ a.descendants.map (evaluate bounds)) ++ x :: after := by simp [segments]
      have root : before.length + a.descendants.length = (before ++ a.descendants.map (evaluate bounds)).length := by
        simp
      simp only [operands, node, rootsFrom, List.getD_cons_zero, Node.projectChildren?, projectOperands?,
        List.map_cons, List.map_nil, root, same, project?_append, valueAt_append]
      simp only [Option.map_eq_bind, Option.bind_eq_bind, Option.pure_def, Option.bind_assoc, Option.bind_some,
        Function.comp_def, same]
  | add a b | sub a b | mul a b | div a b =>
      let left := before ++ a.descendants.map (evaluate bounds)
      let between := b.descendants.map (evaluate bounds)
      have same (x y : Interval) : before ++ segments bounds [a, b] [x, y] ++ after =
          left ++ x :: (between ++ y :: after) := by simp [left, between, segments]
      have first : before.length + a.descendants.length = left.length := by simp [left]
      have second : left.length + 1 + b.descendants.length = left.length + 1 + between.length := by simp [between]
      have slot (x y onto : Interval) := slots left between after x y onto
      simp only [operands, node, rootsFrom, List.getD_cons_zero, List.getD_cons_succ, Node.projectChildren?,
        projectOperands?, List.map_cons, List.map_nil, first, second, same, (slot _ _ .entire).2.1,
        (slot _ _ _).2.2.1, Option.map_eq_bind, Option.bind_eq_bind, Option.pure_def, Option.bind_assoc,
        Option.bind_some, Function.comp_def, (slot _ _ .entire).1, (slot _ _ _).2.2.2]
  | sum terms =>
      have each : (terms.map (evaluate bounds)).length = terms.length := List.length_map _
      have roots := map_valueAt_roots bounds each before after
      simp only [operands, node, Node.projectChildren?, projectOperands?, roots, evaluateAll_eq_map]
      exact foldlM_project? i ((length_sumsOfOthers _).trans (by simp)) before after

/-! ## The sweep -/

/-- Sweeping over the nodes of an expression narrows the expression, and leaves the rest of the arena to do. -/
theorem projectBefore?_layOut (bounds : Var → Interval) (whole : Array Node) (e : Expr) (arena : Array Node) :
    Starts (e.layOut arena) whole → ∀ (before after : List Interval) (x : Interval), before.length = arena.size →
      projectBefore? whole (e.layOut arena).size (before ++ segments bounds [e] [x] ++ after).toArray =
        (e.project? bounds x).bind fun parts =>
          projectBefore? whole arena.size (before ++ parts.map Prod.snd ++ after).toArray := by
  refine layOut_induction
    (fun e arena => Starts (e.layOut arena) whole → ∀ (before after : List Interval) (x : Interval),
      before.length = arena.size →
        projectBefore? whole (e.layOut arena).size (before ++ segments bounds [e] [x] ++ after).toArray =
          (e.project? bounds x).bind fun parts =>
            projectBefore? whole arena.size (before ++ parts.map Prod.snd ++ after).toArray)
    (fun es arena => Starts (layOutAll es arena).2 whole → ∀ (before after xs : List Interval),
      xs.length = es.length → before.length = arena.size →
        projectBefore? whole (layOutAll es arena).2.size (before ++ segments bounds es xs ++ after).toArray =
          (projectAll? bounds es xs).bind fun parts =>
            projectBefore? whole arena.size (before ++ parts.map Prod.snd ++ after).toArray) ?_ ?_ ?_ e arena
  · intro arena starts before after xs each position
    obtain rfl := List.length_eq_zero_iff.1 each
    rfl
  · intro e rest arena here later starts before after xs each position
    cases xs with
    | nil => cases each
    | cons x xs =>
        have split : before ++ segments bounds (e :: rest) (x :: xs) ++ after =
            (before ++ segments bounds [e] [x]) ++ segments bounds rest xs ++ after := by simp [segments]
        have next : (before ++ segments bounds [e] [x]).length = (e.layOut arena).size := by
          simp [segments, size_layOut, position]
          omega
        rw [layOutAll]
        dsimp only
        rw [split, later starts _ after xs (Nat.succ_inj.1 each) next]
        -- The later expressions are swept first, and the earlier ones are as they were.
        have swept (others : List (Expr × Interval)) := here ((starts_layOutAll rest _).trans starts) before
          (others.map Prod.snd ++ after) x position
        simp only [List.append_assoc] at swept ⊢
        simp only [swept, projectAll?, Option.bind_eq_bind, Option.pure_def, Option.bind_assoc, Option.bind_some,
          List.map_append, List.append_assoc]
        exact Option.bind_comm _ _
  · intro e arena below starts before after x position
    rw [layOut_node, ← position] at starts
    have found := starts.last
    have values : before ++ segments bounds [e] [x] ++ after =
        before ++ segments bounds e.operands (e.operands.map (evaluate bounds)) ++ (x :: after) := by
      simp [segments, segments_evaluated, descendants]
    have root : (layOutAll e.operands arena).2.size =
        (before ++ segments bounds e.operands (e.operands.map (evaluate bounds))).length := by
      simp [segments_evaluated, size_layOutAll, position]
    have size : (e.layOut arena).size = (layOutAll e.operands arena).2.size + 1 := by
      rw [layOut_node, Array.size_push]
    rw [size, projectBefore?, found, values]
    dsimp only
    rw [root, valueAt_append, projectChildren?_node, ← root, project?_eq]
    simp only [Option.bind_eq_bind, Option.map_eq_bind, Option.bind_assoc, Option.bind_some, Function.comp_def]
    refine Option.bind_congr fun xs narrowed => ?_
    rw [below ((starts_push _ _).trans starts) before (x :: after) xs (length_of_projectOperands? narrowed) position]
    simp

/-! ## The parts of the result -/

theorem map_fst_projectAll? {parts : List (Expr × Interval)}
    (each : ∀ e ∈ es, ∀ x parts, e.project? bounds x = some parts → parts.map Prod.fst = e.subtrees)
    (lengths : xs.length = es.length) (projected : projectAll? bounds es xs = some parts) :
    parts.map Prod.fst = subtreesAll es := by
  induction es generalizing xs parts with
  | nil =>
      obtain rfl := List.length_eq_zero_iff.1 lengths
      obtain rfl := Option.some.inj projected
      rfl
  | cons e rest ih =>
      cases xs with
      | nil => cases lengths
      | cons x xs =>
          obtain ⟨first, here, later⟩ := Option.bind_eq_some_iff.1 projected
          obtain ⟨others, projectedRest, same⟩ := Option.bind_eq_some_iff.1 later
          obtain rfl := Option.some.inj same
          rw [List.map_append, each e (by simp) x first here,
            ih (fun a member => each a (by simp [member])) (Nat.succ_inj.1 lengths) projectedRest, subtreesAll]

theorem map_fst_project? {parts : List (Expr × Interval)} (projected : e.project? bounds x = some parts) :
    parts.map Prod.fst = e.subtrees := by
  induction e using operands_induction generalizing x parts with
  | step e ih =>
      rw [project?_eq] at projected
      obtain ⟨xs, narrowed, rest⟩ := Option.bind_eq_some_iff.1 projected
      obtain ⟨below, projectedAll, same⟩ := Option.bind_eq_some_iff.1 rest
      obtain rfl := Option.some.inj same
      have each := length_of_projectOperands? narrowed
      rw [List.map_append, map_fst_projectAll? (fun a member x parts => ih a member) each projectedAll, subtrees_eq]
      rfl

/-! ## The whole arena -/

theorem size_arena (e : Expr) : e.arena.size = e.descendants.length + 1 := by
  rw [arena, size_layOut, Array.size_empty, Nat.zero_add]

/-- The expression itself is the last one of its subexpressions. -/
theorem getElem?_root (e : Expr) : e.subtrees[e.arena.size - 1]? = some e := by
  rw [size_arena, subtrees_eq, Nat.add_sub_cancel]
  simp

theorem standsAt_arena {p : Nat} {s : Expr} (found : e.subtrees[p]? = some s) : StandsAt e.arena s p := by
  have there := standsAt_layOut e #[] e.arena (.refl _) p s found
  rwa [Array.size_empty, Nat.zero_add] at there

theorem getElem?_evaluateArena (bounds : Var → Interval) {p : Nat} {s : Expr} (found : e.subtrees[p]? = some s) :
    (evaluateArena bounds e.arena)[p]? = some (s.evaluate bounds) := by
  have values : (evaluateArena bounds e.arena).toList = e.subtrees.map (evaluate bounds) :=
    evaluateArena_layOut bounds e #[]
  rw [← Array.getElem?_toList, values, List.getElem?_map, found, Option.map_some]

theorem mem_vars_iff {v : Var} : v ∈ e.vars ↔ var v ∈ e.subtrees := by
  rw [vars, List.mem_eraseDups, occurrences_eq, List.mem_filterMap]
  constructor
  · rintro ⟨s, member, same⟩
    cases s with
    | var w =>
        obtain rfl := Option.some.inj same
        exact member
    | _ => cases same
  · exact fun member => ⟨_, member, rfl⟩

/-- The nodes of an arena are those of the subexpressions, in their order. -/
theorem forall₂_arena_subtrees (e : Expr) :
    List.Forall₂ (fun (n : Node) (s : Expr) => ∃ ps, n = s.node ps) e.arena.toList e.subtrees := by
  have size : e.arena.toList.length = e.subtrees.length := by
    rw [Array.length_toList, size_arena, length_subtrees]
  refine List.forall₂_iff_get.2 ⟨size, fun i insideArena insideTree => ?_⟩
  cases standsAt_arena (List.getElem?_eq_getElem insideTree) with
  | intro found operands =>
      obtain ⟨inside, same⟩ := Array.getElem?_eq_some_iff.1 found
      exact ⟨_, same⟩

theorem leaves_eq {target : Interval} {parts : List (Expr × Interval)} (tree : parts.map Prod.fst = e.subtrees) :
    (Formula.ofExpr e target).leaves (parts.map Prod.snd).toArray =
      parts.filterMap fun (part, x) => part.var?.map fun v => (v, x) := by
  have nodes := forall₂_arena_subtrees e
  rw [← tree] at nodes
  rw [Formula.leaves, Formula.ofExpr]
  dsimp only
  clear tree
  generalize e.arena.toList = ns at nodes ⊢
  induction parts generalizing ns with
  | nil =>
      cases nodes
      rfl
  | cons part parts ih =>
      obtain ⟨s, x⟩ := part
      cases nodes with
      | cons head rest =>
          obtain ⟨ps, rfl⟩ := head
          rw [List.map_cons, List.zip_cons_cons, List.filterMap_cons, List.filterMap_cons, ih _ rest]
          cases s <;> rfl

end Expr

/-! ## Formulas -/

namespace Formula

variable {e : Expr} {target : Interval}

theorem revise?_ofExpr (bounds : Var → Interval) (e : Expr) (target : Interval) :
    (ofExpr e target).revise? bounds = ((e.evaluate bounds).meet? target).bind fun x =>
      (e.project? bounds x).map fun parts => (parts.map Prod.snd).toArray := by
  have evaluated := Expr.evaluateArena_layOut bounds e #[]
  have values : evaluateArena bounds e.arena =
      (e.descendants.map (Expr.evaluate bounds) ++ [e.evaluate bounds]).toArray := by
    rw [Expr.subtrees_eq, List.map_append] at evaluated
    exact Array.toList_inj.1 evaluated
  have root : e.arena.size - 1 = (e.descendants.map (Expr.evaluate bounds)).length := by
    simp [Expr.size_arena]
  change (do
    let values ← project? (evaluateArena bounds e.arena) (e.arena.size - 1) target
    projectBefore? e.arena e.arena.size values) = _
  rw [values, root, Expr.project?_append]
  have swept (x : Interval) := Expr.projectBefore?_layOut bounds e.arena e #[] (.refl _) [] [] x rfl
  simp only [List.nil_append, List.append_nil, Expr.segments] at swept
  simp only [Option.map_eq_bind, Option.bind_eq_bind, Option.bind_assoc, Option.bind_some, Function.comp_def]
  refine Option.bind_congr fun x _ => ?_
  exact swept x

theorem leaves_revise?_ofExpr (bounds : Var → Interval) (e : Expr) (target : Interval) :
    ((ofExpr e target).revise? bounds).map (ofExpr e target).leaves = e.narrowed? bounds target := by
  rw [revise?_ofExpr, Expr.narrowed?]
  simp only [Option.map_eq_bind, Option.bind_eq_bind, Option.pure_def, Option.bind_assoc, Option.bind_some,
    Function.comp_def]
  refine Option.bind_congr fun x _ => Option.bind_congr fun parts projected => ?_
  rw [Expr.leaves_eq (Expr.map_fst_project? projected)]
  simp only [Option.map_eq_bind]
  rfl

/-- A formula narrows the variables as the expression is narrowed, leaf by leaf, or fails if that fails. -/
theorem propagate_ofExpr (e : Expr) (target : Interval) :
    (ofExpr e target).propagate = (do
      Variables.require e.vars
      match e.narrowed? (← get).bounds target with
      | none => throw (.error (.outsideTarget e.text target))
      | some leaves => leaves.forM fun (v, x) => discard (Variables.narrow v x)) := by
  simp only [← leaves_revise?_ofExpr]
  unfold propagate
  refine congrArg _ (funext fun _ => congrArg _ (funext fun vars => ?_))
  cases (ofExpr e target).revise? vars.bounds <;> rfl

/-- The arena of a formula is the tree of its expression. Operands come before operators, every node but the last one is
    the operand of one other, and the last one is the root. Evaluating the arena evaluates the tree at every node.
    Sweeping back over it leaves at every node what narrowing the tree from the root to the leaves leaves there, or
    fails if that does. The scope lists the variables that occur in the order in which they are first met, each once. -/
theorem ofExpr_refines (e : Expr) (target : Interval) :
    let f := ofExpr e target
    (Expr.ChildrenEarlier f.arena ∧
      (∀ child, child + 1 < f.arena.size → ∃! p : Nat, ∃ n : Node, f.arena[p]? = some n ∧ child ∈ n.children) ∧
      (∀ n ∈ f.arena, n.children.Nodup ∧ f.arena.size - 1 ∉ n.children) ∧
      Expr.StandsAt f.arena e (f.arena.size - 1)) ∧
    (f.arena.size = e.subtrees.length ∧ ∀ p s, e.subtrees[p]? = some s → Expr.StandsAt f.arena s p ∧
      ∀ bounds, (evaluateArena bounds f.arena)[p]? = some (s.evaluate bounds)) ∧
    (∀ bounds, (evaluateArena bounds f.arena)[f.arena.size - 1]? = some (e.evaluate bounds) ∧
      (f.revise? bounds = ((e.evaluate bounds).meet? target).bind fun x =>
        (e.project? bounds x).map fun parts => (parts.map Prod.snd).toArray) ∧
      (∀ x parts, e.project? bounds x = some parts → parts.map Prod.fst = e.subtrees) ∧
      (f.revise? bounds).map f.leaves = e.narrowed? bounds target) ∧
    (f.propagate = (do
      Variables.require e.vars
      match e.narrowed? (← get).bounds target with
      | none => throw (.error (.outsideTarget e.text target))
      | some leaves => leaves.forM fun (v, x) => discard (Variables.narrow v x))) ∧
    f.scope.Nodup ∧ (∀ v, v ∈ f.scope ↔ Expr.var v ∈ e.subtrees) ∧ e.occurrences = e.subtrees.filterMap Expr.var? ∧
      f.scope.Pairwise fun v w => e.occurrences.idxOf v < e.occurrences.idxOf w := by
  intro f
  obtain ⟨parent, distinct⟩ := Expr.existsUnique_parent e
  have root := Expr.getElem?_root e
  have size : f.arena.size = e.subtrees.length := (Expr.size_arena e).trans (Expr.length_subtrees e).symm
  have inTree (p : Nat) (s : Expr) (found : e.subtrees[p]? = some s) : Expr.StandsAt f.arena s p ∧
      ∀ bounds, (evaluateArena bounds f.arena)[p]? = some (s.evaluate bounds) :=
    ⟨Expr.standsAt_arena found, fun bounds => Expr.getElem?_evaluateArena bounds found⟩
  have first : Expr.ChildrenEarlier f.arena := Expr.childrenEarlier_layOut e #[] (by simp [Expr.ChildrenEarlier])
  refine ⟨⟨first, parent, distinct, (inTree _ _ root).1⟩, ⟨size, inTree⟩, fun bounds => ?_, propagate_ofExpr e target,
    Store.nodup_eraseDups _, fun _ => Expr.mem_vars_iff, Expr.occurrences_eq e, pairwise_eraseDups _⟩
  exact ⟨(inTree _ _ root).2 bounds, revise?_ofExpr bounds e target, fun x parts => Expr.map_fst_project?,
    leaves_revise?_ofExpr bounds e target⟩

end Formula

end StatBounds
