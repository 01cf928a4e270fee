import StatBounds.Encoding.Series
import StatBounds.Proofs.Propagation.Quiet

/-! # Sums as formulas

The arena of a sum of variables has one leaf for each of them and the sum over all leaves as its root. So the root
evaluates to the sum of what is known of the variables.
-/

namespace StatBounds

open Store (sumOf)

variable {vs : List Var} {target : Interval} {bounds : Var → Interval}

/-- Variables are laid out one after another. -/
theorem Expr.layOutAll_vars (vs : List Var) (arena : Array Node) :
    layOutAll (vs.map .var) arena =
      ((List.range vs.length).map (arena.size + ·), arena ++ (vs.map Node.var).toArray) := by
  induction vs generalizing arena with
  | nil => simp [layOutAll]
  | cons v vs ih =>
      have size : (arena.push (Node.var v)).size = arena.size + 1 := Array.size_push _
      rw [List.map_cons, layOutAll, layOut, ih, size]
      simp only [Nat.add_sub_cancel, List.length_cons, List.range_succ_eq_map, List.map_cons, List.map_map,
        Nat.add_zero]
      have later : (List.range vs.length).map (fun i => arena.size + 1 + i) =
          (List.range vs.length).map ((fun i => arena.size + i) ∘ Nat.succ) :=
        List.map_congr_left fun i _ => by rw [Function.comp_apply, Nat.succ_eq_one_add, Nat.add_assoc]
      rw [later]
      simp

theorem arena_sumOf (some : vs ≠ []) :
    (sumOf vs).arena = ((vs.map Node.var) ++ [Node.sum (List.range vs.length)]).toArray := by
  obtain ⟨v, rest, rfl⟩ := List.exists_cons_of_ne_nil some
  change (Expr.sum ((v :: rest).map .var)).layOut #[] = _
  rw [Expr.layOut, Expr.layOutAll_vars]
  simp

theorem evaluateArena_sumOf (some : vs ≠ []) :
    evaluateArena bounds (sumOf vs).arena = (vs.map bounds ++ [Interval.sum (vs.map bounds)]).toArray := by
  have leaves (vs : List Var) (values : Array Interval) :
      (vs.map Node.var).foldl (fun values node => values.push (node.evaluate bounds values)) values =
        values ++ (vs.map bounds).toArray := by
    induction vs generalizing values with
    | nil => simp
    | cons v vs ih => rw [List.map_cons, List.foldl_cons, ih]; simp [Node.evaluate]
  have terms : (List.range vs.length).map (valueAt (vs.map bounds).toArray) = vs.map bounds := by
    refine List.ext_getElem (by simp) fun i inside inside' => ?_
    rw [List.length_map] at inside'
    simp [valueAt, Array.getD_eq_getD_getElem?, inside']
  rw [evaluateArena, arena_sumOf some, List.foldl_toArray, List.foldl_append, leaves]
  simp [Node.evaluate, terms]

theorem valueAt_root_sumOf (vs : List Var) :
    valueAt (evaluateArena bounds (sumOf vs).arena) ((sumOf vs).arena.size - 1) = Interval.sum (vs.map bounds) := by
  cases vs with
  | nil => rfl
  | cons v vs =>
      rw [evaluateArena_sumOf (List.cons_ne_nil v vs), arena_sumOf (List.cons_ne_nil v vs)]
      simp [valueAt, Array.getD_eq_getD_getElem?]

/-- If a sum can be revised, then what is known of the variables adds up to something in the target. -/
theorem Formula.meets_of_revise {values : Array Interval}
    (revised : (ofExpr (sumOf vs) target).revise? bounds = some values) :
    ((Interval.sum (vs.map bounds)).intersect target).isEmpty = false := by
  obtain ⟨projected, root, -⟩ := Option.bind_eq_some_iff.1 revised
  rw [project?, ofExpr, valueAt_root_sumOf] at root
  split_ifs at root with none
  exact Bool.eq_false_iff.2 none

end StatBounds
