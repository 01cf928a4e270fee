import StatBounds.Encoding.Inverse
import StatBounds.Proofs.Encoding.Layout

/-! # Grids of real variables

A grid is created cell by cell, row after row. So the positions of its cells are known from the number of variables
that there were before, and all that can go wrong is a name that is in use.
-/

namespace StatBounds

open Binary64 (IsNumber value)

namespace Store

section

variable {α β : Type} {store after : Store}

/-- A store is another one with new variables at the end. -/
structure Gains (store after : Store) (news : List Variable) : Prop where
  arena : after.vars.arena.toList = store.vars.arena.toList ++ news
  constraints : after.constraints = store.constraints

theorem Gains.size {news : List Variable} (gains : store.Gains after news) :
    after.vars.size = store.vars.size + news.length := by
  have lengths := congrArg List.length gains.arena
  simpa [Variables.size] using lengths

theorem Gains.get?_old {news : List Variable} (gains : store.Gains after news) {v : Var}
    (old : v.index < store.vars.size) : after.vars.get? v = store.vars.get? v := by
  have inside : v.index < store.vars.arena.toList.length := old
  rw [Variables.get?, Variables.get?, ← Array.getElem?_toList, ← Array.getElem?_toList, gains.arena,
    List.getElem?_append_left inside]

theorem Gains.get?_new {news : List Variable} (gains : store.Gains after news) (k : Nat) :
    after.vars.get? ⟨store.vars.size + k⟩ = news[k]? := by
  have behind : store.vars.arena.toList.length ≤ store.vars.size + k := Nat.le_add_right _ _
  have offset : store.vars.size + k - store.vars.arena.toList.length = k := Nat.add_sub_cancel_left _ _
  rw [Variables.get?, ← Array.getElem?_toList, gains.arena, List.getElem?_append_right behind, offset]

/-- The operation creates variables and does nothing else, if it succeeds. Its result depends on their positions, which
    start at the number of the variables that there are. -/
def Allocates (operation : StoreM α) (news : List Variable) (result : Nat → α) : Prop :=
  ∀ store, Ensures operation store (fun a after => store.Gains after news ∧ a = result store.vars.size) fun _ _ => True

theorem allocates_newReal (name : String) (lo hi precision : Float) :
    Allocates (newReal name lo hi precision) [{ name, domain := .real { interval := .ofBounds lo hi, precision } }]
      (⟨·⟩) := by
  intro store
  obtain ⟨e, same⟩ | ⟨-, same⟩ := newReal_cases name lo hi precision
  · rw [same]
    trivial
  · rw [same, Ensures, addVar_eq]
    split_ifs
    · trivial
    · exact ⟨⟨by simp [extended], rfl⟩, rfl⟩

theorem Allocates.of_checks {check : StoreM β} {rest : β → StoreM α} {news : List Variable} {result : Nat → α}
    (checks : Checks check) (tail : ∀ b, Allocates (rest b) news result) :
    Allocates (check >>= rest) news result := by
  intro store
  rw [ensures_bind]
  refine (checks store).mono ?_ fun _ _ _ => trivial
  rintro b _ rfl
  exact tail b _

theorem Allocates.refuse {condition : Prop} [Decidable condition] {failure : Failure} {rest : PUnit → StoreM α}
    {news : List Variable} {result : Nat → α} (tail : ¬ condition → Allocates (rest ⟨⟩) news result) :
    Allocates (if condition then throw failure >>= rest else rest ⟨⟩) news result := by
  split_ifs with refused
  · exact fun _ => trivial
  · exact tail refused

theorem Allocates.mapM {step : α → StoreM β} {news : α → List Variable} {result : α → Nat → β} {as : List α}
    {width : Nat} (each : ∀ a ∈ as, Allocates (step a) (news a) (result a))
    (widths : ∀ a ∈ as, (news a).length = width) :
    Allocates (as.mapM step) (as.flatMap news) fun size => as.mapIdx fun i a => result a (size + i * width) := by
  induction as with
  | nil => exact fun store => ⟨⟨by simp, rfl⟩, rfl⟩
  | cons a as ih =>
      intro store
      rw [List.mapM_cons, ensures_bind]
      refine (each a (by simp) store).mono ?_ fun _ _ _ => trivial
      rintro _ middle ⟨first, rfl⟩
      rw [ensures_bind]
      refine (ih (fun a member => each a (by simp [member])) (fun a member => widths a (by simp [member])) middle).mono
        ?_ fun _ _ _ => trivial
      rintro _ last ⟨rest, rfl⟩
      refine ⟨⟨?_, rest.constraints.trans first.constraints⟩, ?_⟩
      · rw [rest.arena, first.arena, List.append_assoc, List.flatMap_cons]
      · simp only [first.size, widths a (by simp), List.mapIdx_cons, Nat.zero_mul, Nat.add_zero, Nat.add_mul,
          Nat.one_mul, Nat.add_assoc, Nat.add_comm width]

theorem Allocates.batch {operation : StoreM α} {news : List Variable} {result : Nat → α}
    (allocates : Allocates operation news result) : Allocates (batch operation) news result := by
  intro store
  have inside := allocates store.openBatch
  unfold Ensures Store.batch at *
  cases ran : operation store.openBatch with
  | ok a after =>
      rw [ran] at inside
      exact ⟨⟨inside.1.arena, inside.1.constraints⟩, inside.2⟩
  | error failure after => trivial

/-- The entries of a square matrix row by row. -/
def rows {n : Nat} (entry : Fin n → Fin n → Var) : List (List Var) :=
  List.ofFn fun i => List.ofFn (entry i)

def gridDomain (bound precision : Float) : Domain :=
  .real { interval := .ofBounds (-bound) bound, precision }

def gridVariables (name : String) (n : Nat) (bound precision : Float) : List Variable :=
  (List.range n).flatMap fun i => (List.range n).map fun j =>
    { name := gridName name i j, domain := gridDomain bound precision }

theorem length_gridVariables {name : String} {n : Nat} {bound precision : Float} :
    (gridVariables name n bound precision).length = n * n := by
  simp [gridVariables, List.length_flatMap]

theorem domain_of_mem_gridVariables {name : String} {n : Nat} {bound precision : Float} {x : Variable}
    (member : x ∈ gridVariables name n bound precision) : x.domain = gridDomain bound precision := by
  obtain ⟨i, -, inRow⟩ := List.mem_flatMap.1 member
  obtain ⟨j, -, rfl⟩ := List.mem_map.1 inRow
  rfl

theorem allocates_newGrid (name : String) (n : Nat) (bound precision : Float) :
    Allocates (newGrid name n bound precision) (gridVariables name n bound precision)
      fun size => rows fun i j : Fin n => gridVar size n i j := by
  have row (i : Nat) : Allocates ((List.range n).mapM fun j => newReal (gridName name i j) (-bound) bound precision)
      ((List.range n).map fun j => { name := gridName name i j, domain := gridDomain bound precision })
      fun size => (List.range n).mapIdx fun j _ => ⟨size + j * 1⟩ := by
    rw [List.map_eq_flatMap]
    exact .mapM (fun j _ => allocates_newReal _ _ _ _) fun _ _ => rfl
  have cells : Allocates ((List.range n).mapM fun i => (List.range n).mapM fun j =>
      newReal (gridName name i j) (-bound) bound precision) (gridVariables name n bound precision) _ :=
    .mapM (fun i _ => row i) fun i _ => (List.length_map _).trans List.length_range
  have result (size : Nat) : (List.range n).mapIdx (fun i _ => (List.range n).mapIdx fun j _ =>
      (⟨size + i * n + j * 1⟩ : Var)) = rows fun i j : Fin n => gridVar size n i j := by
    refine List.ext_getElem (by simp [rows]) fun i inside _ => List.ext_getElem (by simp [rows]) fun j inside _ => ?_
    simp [rows, gridVar]
  unfold newGrid
  refine .refuse fun _ => .of_checks (.orFail _) fun _ => .refuse fun _ => ?_
  simpa only [result] using cells.batch

theorem rows_injective {n : Nat} : Function.Injective (rows (n := n)) := by
  intro entry other same
  exact funext fun i => List.ofFn_injective (congrFun (List.ofFn_injective same) i)

theorem gridVar_injective {size n : Nat} {i j k l : Fin n} (same : gridVar size n i j = gridVar size n k l) :
    i = k ∧ j = l := by
  have positions : finProdFinEquiv (i, j) = finProdFinEquiv (k, l) := by
    have index : size + i * n + j = size + k * n + l := congrArg Var.index same
    refine Fin.ext ?_
    simp only [finProdFinEquiv_apply_val]
    linarith
  simpa using finProdFinEquiv.injective positions

/-- A new grid consists of cells with the same domain behind all other variables, which stay as they are. -/
theorem of_newGrid {name : String} {n : Nat} {bound precision : Float} {cell : Fin n → Fin n → Var}
    (made : newGrid name n bound precision store = .ok (rows cell) after) :
    (∀ i j, cell i j = gridVar store.vars.size n i j) ∧ after.constraints = store.constraints ∧
      (∀ v, v.index < store.vars.size → after.vars.get? v = store.vars.get? v) ∧
      ∀ i j, ∃ x, after.vars.get? (cell i j) = some x ∧ x.domain = gridDomain bound precision := by
  have allocates := allocates_newGrid name n bound precision store
  rw [Ensures, made] at allocates
  obtain ⟨gains, same⟩ := allocates
  obtain rfl := rows_injective same
  refine ⟨fun _ _ => rfl, gains.constraints, fun v => gains.get?_old, fun i j => ?_⟩
  have inside : i * n + j < (gridVariables name n bound precision).length := by
    rw [length_gridVariables]
    nlinarith [i.isLt, j.isLt]
  have position : gridVar store.vars.size n i j = ⟨store.vars.size + (i * n + j)⟩ := by
    rw [gridVar, Nat.add_assoc]
  change ∃ x, after.vars.get? (gridVar store.vars.size n i j) = some x ∧ _
  rw [position]
  exact ⟨_, (gains.get?_new _).trans (List.getElem?_eq_getElem inside),
    domain_of_mem_gridVariables (List.getElem_mem _)⟩

/-- Only a grid with cells and a bound that is a number and not negative is made. -/
theorem valid_of_newGrid {name : String} {n : Nat} {bound precision : Float} {x : List (List Var)}
    (made : newGrid name n bound precision store = .ok x after) : 0 < n ∧ IsNumber bound ∧ 0 ≤ value bound := by
  unfold newGrid at made
  split_ifs at made with empty invalid invalid
  · cases made
  · cases made
  · obtain ⟨_, -, made⟩ := (Checks.orFail _).peel made
    cases made
  · simp only [Bool.or_eq_true, decide_eq_true_eq, not_or, Bool.not_eq_true] at invalid
    have number : IsNumber bound := invalid.1
    refine ⟨Nat.pos_of_ne_zero empty, number, ?_⟩
    rw [← Binary64.value_zero]
    exact (Binary64.not_lt_iff number Binary64.isNumber_zero).1 invalid.2

/-! ## Names that are free -/

/-- The store after new variables have been created one after another. -/
def extendedAll (store : Store) : List Variable → Store
  | [] => store
  | x :: news => (store.extended x.name x.domain).extendedAll news

theorem extendedAll_append (store : Store) (news others : List Variable) :
    store.extendedAll (news ++ others) = (store.extendedAll news).extendedAll others := by
  induction news generalizing store with
  | nil => rfl
  | cons x news ih => exact ih _

theorem contains_extendedAll {news : List Variable} {name : String} :
    (store.extendedAll news).vars.names.contains name =
      (store.vars.names.contains name || news.any fun x => x.name == name) := by
  induction news generalizing store with
  | nil => simp [extendedAll]
  | cons x news ih =>
      rw [extendedAll, ih, names_contains_extended, List.any_cons, ← Bool.or_assoc, Bool.or_comm (x.name == name)]

/-- The operation creates variables and does nothing else, if their names are different and free. -/
def Makes (operation : StoreM α) (news : List Variable) : Prop :=
  ∀ store : Store, (news.map Variable.name).Nodup → (∀ x ∈ news, store.vars.names.contains x.name = false) →
    ∃ a, operation store = .ok a (store.extendedAll news)

theorem makes_newReal {lo hi precision : Float} (precise : checkPrecision precision = .ok ())
    (numberLo : IsNumber lo) (numberHi : IsNumber hi) (ordered : ¬ hi < lo) (name : String) :
    Makes (newReal name lo hi precision) [{ name, domain := .real { interval := .ofBounds lo hi, precision } }] := by
  intro store _ free
  rw [newReal_eq precise numberLo numberHi ordered, addVar_eq,
    if_neg (Bool.eq_false_iff.1 (free _ (List.mem_singleton_self _)))]
  exact ⟨_, rfl⟩

theorem Makes.mapM {step : α → StoreM β} {news : α → List Variable} {as : List α}
    (each : ∀ a ∈ as, Makes (step a) (news a)) : Makes (as.mapM step) (as.flatMap news) := by
  induction as with
  | nil => exact fun store _ _ => ⟨[], rfl⟩
  | cons a as ih =>
      intro store distinct free
      rw [List.flatMap_cons] at distinct free ⊢
      rw [List.map_append, List.nodup_append'] at distinct
      obtain ⟨own, others, apart⟩ := distinct
      obtain ⟨b, first⟩ := each a (by simp) store own fun x member => free x (List.mem_append_left _ member)
      have unused (x : Variable) (member : x ∈ as.flatMap news) :
          (store.extendedAll (news a)).vars.names.contains x.name = false := by
        rw [contains_extendedAll, free x (List.mem_append_right _ member), Bool.false_or, List.any_eq_false]
        intro y here same
        exact apart (List.mem_map_of_mem here) (beq_iff_eq.1 same ▸ List.mem_map_of_mem member)
      obtain ⟨bs, rest⟩ := ih (fun a member => each a (by simp [member])) _ others unused
      refine ⟨b :: bs, ?_⟩
      simp only [List.mapM_cons, Bind.bind, EStateM.bind, first, rest, extendedAll_append]
      rfl

/-- A grid is made if the bound and the precision are valid and all names are free. -/
theorem newGrid_eq {name : String} {n : Nat} {bound precision : Float} (positive : 0 < n)
    (precise : checkPrecision precision = .ok ()) (number : IsNumber bound) (nonneg : ¬ bound < 0.0)
    (distinct : ((gridVariables name n bound precision).map Variable.name).Nodup)
    (free : ∀ x ∈ gridVariables name n bound precision, store.vars.names.contains x.name = false) :
    newGrid name n bound precision store = .ok (rows fun i j : Fin n => gridVar store.vars.size n i j)
      (store.openBatch.extendedAll (gridVariables name n bound precision)).commit := by
  have ordered : ¬ bound < -bound := by
    rw [Binary64.not_lt_iff number Binary64.isNumber_zero, Binary64.value_zero] at nonneg
    rw [Binary64.not_lt_iff number (Binary64.isNumber_neg.2 number), Binary64.value_neg]
    exact (EReal.neg_le_neg_iff.2 nonneg).trans (by simpa using nonneg)
  have row (i : Nat) : Makes ((List.range n).mapM fun j => newReal (gridName name i j) (-bound) bound precision)
      ((List.range n).map fun j => { name := gridName name i j, domain := gridDomain bound precision }) := by
    rw [List.map_eq_flatMap]
    exact .mapM fun j _ => makes_newReal precise (Binary64.isNumber_neg.2 number) number ordered _
  have cells : Makes ((List.range n).mapM fun i => (List.range n).mapM fun j =>
      newReal (gridName name i j) (-bound) bound precision) (gridVariables name n bound precision) :=
    .mapM fun i _ => row i
  obtain ⟨x, ran⟩ := cells store.openBatch distinct free
  have valid : ¬ (bound.isNaN || decide (bound < 0.0)) = true := by
    simp only [Bool.or_eq_true, decide_eq_true_eq, not_or, Bool.not_eq_true]
    exact ⟨number, nonneg⟩
  have made : newGrid name n bound precision store =
      .ok x (store.openBatch.extendedAll (gridVariables name n bound precision)).commit := by
    rw [newGrid, if_neg positive.ne', precise, orFail, pure_bind]
    refine (congrFun (if_neg valid) store).trans ?_
    change batch _ store = _
    rw [batch, ran]
    rfl
  have allocates := allocates_newGrid name n bound precision store
  rw [Ensures, made] at allocates
  exact made.trans (congrArg (EStateM.Result.ok · _) allocates.2)

end

end Store

end StatBounds
