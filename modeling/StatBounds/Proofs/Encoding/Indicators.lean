import StatBounds.Proofs.Encoding.Bins
import StatBounds.Proofs.Encoding.Layout
import StatBounds.Proofs.Propagation.Formulas

/-! # Values of indicators

An indicator tells whether something is true of the variables that were there before, so their values leave one choice
for it. Sums of indicators count how often it is true.
-/

namespace StatBounds

variable {σ τ : Assignment}

/-! ## Sums -/

/-- A sum of variables is in a target exactly if their readings add up to a number in it. -/
theorem Formula.holds_sumOf_iff {vs : List Var} {target : Interval} :
    (Formula.ofExpr (Store.sumOf vs) target).Holds σ ↔
      target.Encloses (((vs.map fun v => (σ v).reading).sum : ℝ) : EReal) := by
  have leaves (e : Expr) (member : e ∈ vs.map .var) : e.FiniteConstants ∧ e.Defined σ := by
    obtain ⟨v, -, rfl⟩ := List.mem_map.1 member
    exact ⟨trivial, trivial⟩
  rw [Store.sumOf, Formula.holds_total_iff (fun e member => (leaves e member).1) fun e member => (leaves e member).2,
    List.map_map]
  rfl

theorem Interval.encloses_natCast_iff {lo hi : Float} {m n k : Nat} (low : Binary64.value lo = (m : ℝ))
    (high : Binary64.value hi = (n : ℝ)) (number : Binary64.IsNumber lo) (number' : Binary64.IsNumber hi) :
    (Interval.ofBounds lo hi).Encloses ((k : ℝ) : EReal) ↔ m ≤ k ∧ k ≤ n := by
  rw [Interval.ofBounds_of_isNumber number number']
  constructor
  · intro encloses
    have lower := encloses.lower
    have upper := encloses.upper
    rw [low, EReal.coe_le_coe_iff, Nat.cast_le] at lower
    rw [high, EReal.coe_le_coe_iff, Nat.cast_le] at upper
    exact ⟨lower, upper⟩
  · rintro ⟨lower, upper⟩
    refine ⟨⟨number, number'⟩, ?_, ?_⟩
    · rw [low, EReal.coe_le_coe_iff, Nat.cast_le]
      exact lower
    · rw [high, EReal.coe_le_coe_iff, Nat.cast_le]
      exact upper

theorem sum_range_eq_sum {α : Type} {as : List α} {h : α → Nat} {f : Nat → ℝ}
    (tells : ∀ i a, as[i]? = some a → f i = h a) :
    ((List.range as.length).map f).sum = ((as.map h).sum : Nat) := by
  induction as generalizing f with
  | nil => simp
  | cons a as ih =>
      have rest := ih fun i b found => tells (i + 1) b found
      have first := tells 0 a rfl
      rw [List.length_cons, List.range_succ_eq_map, List.map_cons, List.map_map, List.sum_cons, List.map_cons,
        List.sum_cons, Nat.cast_add, first]
      exact congrArg _ rest

theorem countP_eq_sum {α : Type} (as : List α) (p : α → Bool) :
    as.countP p = (as.map fun a => if p a then 1 else 0).sum := by
  induction as with
  | nil => rfl
  | cons a as ih => rw [List.countP_cons, ih, List.map_cons, List.sum_cons, Nat.add_comm]

theorem countP_decide_eq_sum {α : Type} (as : List α) (p : α → Prop) [DecidablePred p] :
    (as.countP fun a => p a) = (as.map fun a => if p a then 1 else 0).sum := by
  simp only [countP_eq_sum, decide_eq_true_eq]

/-- Truth values of the elements of a list add up to the number of elements for which they are 1. -/
theorem sum_range_eq_countP {α : Type} {as : List α} {p : α → Prop} [DecidablePred p] {f : Nat → ℝ}
    (tells : ∀ i a, as[i]? = some a → f i = if p a then 1 else 0) :
    ((List.range as.length).map f).sum = as.countP fun a => p a := by
  rw [countP_eq_sum]
  refine sum_range_eq_sum fun i a found => ?_
  rw [tells i a found]
  by_cases holds : p a
  · simp [holds]
  · simp [holds]

/-- A property that no two elements share holds for one element at most. -/
theorem countP_le_one {α : Type} {as : List α} {p : α → Bool}
    (apart : as.Pairwise fun a b => ¬ (p a = true ∧ p b = true)) : as.countP p ≤ 1 := by
  induction apart with
  | nil => simp
  | @cons a as others _ ih =>
      rw [List.countP_cons]
      by_cases holds : p a = true
      · have none : as.countP p = 0 :=
          List.countP_eq_zero.2 fun b member also => others b member ⟨holds, also⟩
        rw [none, if_pos holds]
      · rw [if_neg holds]
        exact ih

/-- A property holds for one element exactly if it does so at one position. -/
theorem countP_eq_one_iff {α : Type} {as : List α} {p : α → Bool} :
    as.countP p = 1 ↔ ∃! i : Nat, ∃ a, as[i]? = some a ∧ p a = true := by
  induction as with
  | nil => simp
  | cons a as ih =>
      rw [List.countP_cons]
      by_cases holds : p a = true
      · rw [if_pos holds, Nat.add_eq_right, List.countP_eq_zero]
        constructor
        · intro none
          refine ⟨0, ⟨a, rfl, holds⟩, ?_⟩
          rintro (_ | i) ⟨b, found, also⟩
          · rfl
          · exact absurd also (none b (List.mem_of_getElem? found))
        · rintro ⟨i, -, unique⟩ b member also
          obtain ⟨j, found⟩ := List.mem_iff_getElem?.1 member
          have first := unique 0 ⟨a, rfl, holds⟩
          have later := unique (j + 1) ⟨b, found, also⟩
          omega
      · have notFirst {b : α} (found : (a :: as)[0]? = some b) : ¬ p b = true := by
          obtain rfl : a = b := by simpa using found
          exact holds
        rw [if_neg holds, Nat.add_zero, ih]
        constructor
        · rintro ⟨i, ⟨b, found, also⟩, unique⟩
          refine ⟨i + 1, ⟨b, found, also⟩, ?_⟩
          rintro (_ | j) ⟨c, found', also'⟩
          · exact absurd also' (notFirst found')
          · exact congrArg (· + 1) (unique j ⟨c, found', also'⟩)
        · rintro ⟨_ | i, ⟨b, found, also⟩, unique⟩
          · exact absurd also (notFirst found)
          · exact ⟨i, ⟨b, found, also⟩, fun j there => Nat.succ.inj (unique (j + 1) there)⟩

open Classical in
/-- A number lies in one bin exactly if one bin has it. -/
theorem Bin.inOne_iff_countP {bins : List Bin} {x : EReal} :
    InOne bins x ↔ (bins.countP fun bin => bin.Has x) = 1 := by
  rw [countP_eq_one_iff]
  simp only [decide_eq_true_eq]
  exact Iff.rfl

/-! ## Truth values -/

theorem admits_truthVariable_iff {name : String} {c : Choice} :
    (truthVariable name).domain.Admits c ↔ c = .int 0 ∨ c = .int 1 := by
  cases c with
  | real r => simp [truthVariable, Domain.Admits]
  | int n =>
      have values : (IntSet.range 0 1).values = [0, 1] := by decide
      simp only [truthVariable, Domain.Admits, values, List.mem_cons, List.not_mem_nil, or_false, Choice.int.injEq]
      exact or_congr (Int64.toInt_inj (y := 0)) (Int64.toInt_inj (y := 1))

@[simp] theorem Choice.reading_zero : (Choice.int 0).reading = 0 := by
  rw [Choice.reading_int (by decide)]
  exact Int.cast_zero

@[simp] theorem Choice.reading_one : (Choice.int 1).reading = 1 := by
  rw [Choice.reading_int (by decide)]
  exact Int.cast_one

/-- An integer that is read as a small one is that one: its neighbours are read as themselves. -/
theorem Choice.toInt_eq_of_reading {m : Int64} {n : Int} (small : |n| < 2 ^ 53) (reading : (Choice.int m).reading = n) :
    m.toInt = n := by
  obtain ⟨low, high⟩ := abs_lt.1 small
  have value := Choice.value_ofInt m
  rw [reading] at value
  rcases lt_trichotomy m.toInt n with less | same | more
  · have below := Binary64.value_ofInt_mono (show m.toInt ≤ n - 1 by omega)
    rw [value, Binary64.value_ofInt_exact (abs_le.2 ⟨by omega, by omega⟩), EReal.coe_le_coe_iff, Int.cast_le] at below
    omega
  · exact same
  · have above := Binary64.value_ofInt_mono (show n + 1 ≤ m.toInt by omega)
    rw [value, Binary64.value_ofInt_exact (abs_le.2 ⟨by omega, by omega⟩), EReal.coe_le_coe_iff, Int.cast_le] at above
    omega

theorem Domain.Admits.eq_of_reading {d : Domain} {c c' : Choice} (admits : d.Admits c) (admits' : d.Admits c')
    {n : Int} (small : |n| < 2 ^ 53) (reading : c.reading = n) (reading' : c'.reading = n) : c = c' := by
  cases d with
  | finite s =>
      cases c with
      | real r => exact admits.elim
      | int m =>
          cases c' with
          | real r => exact admits'.elim
          | int m' =>
              have same : m.toInt = m'.toInt :=
                (Choice.toInt_eq_of_reading small reading).trans (Choice.toInt_eq_of_reading small reading').symm
              rw [Int64.toInt_inj.1 same]
  | real r =>
      cases c with
      | int m => exact admits.elim
      | real x =>
          cases c' with
          | int m => exact admits'.elim
          | real x' => exact congrArg Choice.real (reading.trans reading'.symm)

open Classical in
/-- The truth value of a proposition. -/
noncomputable def Choice.truth (p : Prop) : Choice :=
  if p then .int 1 else .int 0

open Classical in
theorem Choice.reading_truth (p : Prop) : (Choice.truth p).reading = if p then 1 else 0 := by
  unfold Choice.truth
  split_ifs
  · exact reading_one
  · exact reading_zero

theorem Choice.reading_truth_eq_one {p : Prop} : (Choice.truth p).reading = 1 ↔ p := by
  rw [reading_truth]
  split_ifs with holds
  · simp [holds]
  · simp [holds]

theorem Choice.truth_cases (p : Prop) : Choice.truth p = .int 0 ∨ Choice.truth p = .int 1 := by
  unfold Choice.truth
  split_ifs
  · exact .inr rfl
  · exact .inl rfl

theorem Choice.eq_truth {c : Choice} {p : Prop} (truth : c = .int 0 ∨ c = .int 1) (tells : c.reading = 1 ↔ p) :
    c = .truth p := by
  unfold Choice.truth
  rcases truth with rfl | rfl
  · rw [reading_zero] at tells
    rw [if_neg fun holds => absurd (tells.2 holds) (by norm_num)]
  · rw [reading_one] at tells
    rw [if_pos (tells.1 rfl)]

/-! ## Grids -/

namespace Assignment

noncomputable def withGrid (σ : Assignment) (first rows width : Nat) (tells : Nat → Nat → Prop) : Assignment :=
  fun v => if first ≤ v.index ∧ v.index < first + rows * width then
      .truth (tells ((v.index - first) / width) ((v.index - first) % width))
    else σ v

variable {first rows width row column : Nat} {tells : Nat → Nat → Prop}

theorem withGrid_off {v : Var} (off : ¬ (first ≤ v.index ∧ v.index < first + rows * width)) :
    σ.withGrid first rows width tells v = σ v :=
  if_neg off

theorem gridVar_lt (inRow : row < rows) (inColumn : column < width) : row * width + column < rows * width := by
  calc row * width + column < row * width + width := Nat.add_lt_add_left inColumn _
    _ = (row + 1) * width := (Nat.succ_mul row width).symm
    _ ≤ rows * width := Nat.mul_le_mul_right width inRow

theorem gridVar_div (inColumn : column < width) : (row * width + column) / width = row := by
  rw [Nat.add_comm, Nat.add_mul_div_right _ _ (Nat.zero_lt_of_lt inColumn), Nat.div_eq_of_lt inColumn, Nat.zero_add]

theorem gridVar_mod (inColumn : column < width) : (row * width + column) % width = column := by
  rw [Nat.add_comm, Nat.add_mul_mod_self_right, Nat.mod_eq_of_lt inColumn]

theorem forall_gridVar_iff {p : Var → Prop} : (∀ k < rows * width, p ⟨first + k⟩) ↔
    ∀ row < rows, ∀ column < width, p (Store.gridVar first width row column) := by
  constructor
  · intro each row inRow column inColumn
    rw [Store.gridVar, Nat.add_assoc]
    exact each _ (gridVar_lt inRow inColumn)
  · intro each k inside
    have positive : 0 < width := by
      by_contra none
      rw [Nat.not_lt, Nat.le_zero] at none
      rw [none, Nat.mul_zero] at inside
      omega
    have there := each (k / width) (Nat.div_lt_of_lt_mul (Nat.mul_comm rows width ▸ inside)) (k % width)
      (Nat.mod_lt k positive)
    rwa [Store.gridVar, Nat.add_assoc, Nat.mul_comm, Nat.div_add_mod] at there

theorem withGrid_gridVar (inRow : row < rows) (inColumn : column < width) :
    σ.withGrid first rows width tells (Store.gridVar first width row column) = .truth (tells row column) := by
  have offset : (Store.gridVar first width row column).index - first = row * width + column := by
    rw [Store.gridVar, Nat.add_assoc, Nat.add_sub_cancel_left]
  have inside : first ≤ (Store.gridVar first width row column).index ∧
      (Store.gridVar first width row column).index < first + rows * width := by
    have last := gridVar_lt inRow inColumn
    simp only [Store.gridVar]
    omega
  rw [withGrid, if_pos inside, offset, gridVar_div inColumn, gridVar_mod inColumn]

theorem eq_withGrid (off : ∀ v, ¬ (first ≤ v.index ∧ v.index < first + rows * width) → τ v = σ v)
    (on : ∀ row < rows, ∀ column < width, τ (Store.gridVar first width row column) = .truth (tells row column)) :
    τ = σ.withGrid first rows width tells := by
  have inside : ∀ k < rows * width, τ ⟨first + k⟩ = σ.withGrid first rows width tells ⟨first + k⟩ := by
    rw [forall_gridVar_iff (p := fun v => τ v = σ.withGrid first rows width tells v)]
    intro row inRow column inColumn
    rw [on row inRow column inColumn, withGrid_gridVar inRow inColumn]
  funext v
  by_cases known : first ≤ v.index ∧ v.index < first + rows * width
  · obtain ⟨k, same⟩ := Nat.exists_eq_add_of_le known.1
    obtain rfl : v = ⟨first + k⟩ := congrArg Var.mk same
    exact inside k (by omega)
  · rw [off v known, withGrid_off known]

end Assignment

/-! ## Solutions of what was added -/

/-- A choice is a value of a variable's domain. -/
def Store.Allows (store : Store) (v : Var) (c : Choice) : Prop :=
  ∃ x, store.vars.get? v = some x ∧ x.domain.Admits c

/-- The assignment gives values of their domains to the variables that are new in a later store, and satisfies the
    constraints that are new there. -/
structure Store.Solves (store after : Store) (σ : Assignment) : Prop where
  admits : ∀ v x, store.vars.contains v = false → after.vars.get? v = some x → x.domain.Admits (σ v)
  holds : ∀ c ∈ after.constraints.toList.drop store.constraints.size, c.Satisfied σ

/-- Distinct variables can be given choices that suit their positions, if each of them can. -/
theorem Assignment.exists_suits {vs : List Var} {p : Nat → Choice → Prop} (distinct : vs.Nodup)
    (choices : ∀ k v, vs[k]? = some v → ∃ c, p k c) :
    ∃ τ : Assignment, (∀ v ∉ vs, τ v = σ v) ∧ ∀ k v, vs[k]? = some v → p k (τ v) := by
  classical
  let Suits (v : Var) (c : Choice) : Prop := ∃ k, vs[k]? = some v ∧ p k c
  refine ⟨fun v => if some : ∃ c, Suits v c then some.choose else σ v, fun v other => dif_neg ?_, fun k v found => ?_⟩
  · rintro ⟨c, k, found, -⟩
    exact other (List.mem_of_getElem? found)
  · have some : ∃ c, Suits v c := (choices k v found).imp fun c suits => ⟨k, found, suits⟩
    obtain ⟨j, found', suitable⟩ := some.choose_spec
    obtain rfl := (List.getElem?_inj (List.getElem?_eq_some_iff.1 found).1 distinct).1 (found.trans found'.symm)
    dsimp only
    rwa [dif_pos some]

/-- Distinct variables can be given values from their domains that are read as given numbers, if each of them can. -/
theorem Assignment.exists_entries {store : Store} {entries : List (Var × Nat)} (distinct : (entries.map Prod.fst).Nodup)
    (choices : ∀ entry ∈ entries, ∃ c, store.Allows entry.1 c ∧ c.reading = entry.2) :
    ∃ τ : Assignment, (∀ v ∉ entries.map Prod.fst, τ v = σ v) ∧
      ∀ entry ∈ entries, store.Allows entry.1 (τ entry.1) ∧ (τ entry.1).reading = entry.2 := by
  let suits (k : Nat) (c : Choice) : Prop :=
    ∀ entry, entries[k]? = some entry → store.Allows entry.1 c ∧ c.reading = entry.2
  obtain ⟨τ, others, each⟩ := exists_suits (σ := σ) (p := suits) distinct fun k v found => by
    obtain ⟨entry, here, rfl⟩ : ∃ entry, entries[k]? = some entry ∧ entry.1 = v := by
      simpa [List.getElem?_map, Option.map_eq_some_iff] using found
    obtain ⟨c, allows, reading⟩ := choices entry (List.mem_of_getElem? here)
    refine ⟨c, fun other same => ?_⟩
    obtain rfl := Option.some.inj (here.symm.trans same)
    exact ⟨allows, reading⟩
  refine ⟨τ, others, fun entry member => ?_⟩
  obtain ⟨k, found⟩ := List.mem_iff_getElem?.1 member
  exact each k entry.1 (by rw [List.getElem?_map, found]; rfl) entry found

namespace Store

variable {store after : Store} {names : List String} {constraints : List Constraint}

theorem Extends.solves_iff (extended : store.Extends after names constraints) :
    store.Solves after σ ↔
      (∀ k < names.length, σ ⟨store.vars.size + k⟩ = .int 0 ∨ σ ⟨store.vars.size + k⟩ = .int 1) ∧
        ∀ c ∈ constraints, c.Satisfied σ := by
  have added : after.constraints.toList.drop store.constraints.size = constraints := by
    rw [extended.constraints]
    exact List.drop_left
  constructor
  · intro solves
    refine ⟨fun k inside => ?_, added ▸ solves.holds⟩
    have new : store.vars.contains ⟨store.vars.size + k⟩ = false := by
      simp [Variables.contains]
    exact admits_truthVariable_iff.1 (solves.admits _ _ new (extended.get?_new inside))
  · rintro ⟨truth, holds⟩
    refine ⟨fun v x new found => ?_, added.symm ▸ holds⟩
    have behind : store.vars.size ≤ v.index := Nat.not_lt.1 (of_decide_eq_false new)
    have inside : v.index < after.vars.size := (Array.getElem?_eq_some_iff.1 found).1
    obtain ⟨k, same⟩ := Nat.exists_eq_add_of_le behind
    have small : k < names.length := by
      rw [extended.size] at inside
      omega
    have position : v = ⟨store.vars.size + k⟩ := congrArg Var.mk same
    subst position
    obtain rfl := Option.some.inj ((extended.get?_new small).symm.trans found)
    exact admits_truthVariable_iff.2 (truth k small)

end Store

end StatBounds
