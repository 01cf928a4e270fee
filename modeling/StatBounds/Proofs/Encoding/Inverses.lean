import StatBounds.Proofs.Encoding.AllOrNothing
import StatBounds.Proofs.Encoding.Grids
import StatBounds.Proofs.Propagation.Supports

/-! # Inverse matrices

A constraint of an inverse matrix is about one row of the matrix and one column of the inverse. So propagation decides
row by row, and does not see that a matrix is singular where each of its rows alone can be solved. Whatever the matrix
is, posting the constraints succeeds.
-/

namespace StatBounds

open Binary64 (IsNumber value)

/-! ## Boxes of solutions -/

section

variable {n : Nat} {M low high : Matrix (Fin n) (Fin n) ℝ} {b : ℝ}

/-- Each single equation of `M * X = 1` can be solved by a column within a box, whatever value of the box is given to
    one entry of the column. -/
structure SolvableRowwise (M low high : Matrix (Fin n) (Fin n) ℝ) : Prop where
  ordered : ∀ k j, low k j ≤ high k j
  solves : ∀ i j k, ∀ r ∈ Set.Icc (low k j) (high k j), ∃ x : Fin n → ℝ,
    (∀ l, x l ∈ Set.Icc (low l j) (high l j)) ∧ x k = r ∧ ∑ l, M i l * x l = (1 : Matrix (Fin n) (Fin n) ℝ) i j

/-- Each single equation of `M * X = 1` can be solved by a column within a box, whatever value of a second box is given
    to one entry of the column. -/
structure SolvesRows (M low high low' high' : Matrix (Fin n) (Fin n) ℝ) : Prop where
  ordered : ∀ k j, low' k j ≤ high' k j
  solves : ∀ i j k, ∀ r ∈ Set.Icc (low' k j) (high' k j), ∃ x : Fin n → ℝ,
    (∀ l, x l ∈ Set.Icc (low l j) (high l j)) ∧ x k = r ∧ ∑ l, M i l * x l = (1 : Matrix (Fin n) (Fin n) ℝ) i j

theorem SolvableRowwise.solvesRows (solvable : SolvableRowwise M low high) : SolvesRows M low high low high :=
  ⟨solvable.ordered, solvable.solves⟩

/-- The second box lies in the first one. -/
theorem SolvesRows.inside {low' high' : Matrix (Fin n) (Fin n) ℝ} (solvable : SolvesRows M low high low' high')
    (k j : Fin n) {r : ℝ} (member : r ∈ Set.Icc (low' k j) (high' k j)) : r ∈ Set.Icc (low k j) (high k j) := by
  obtain ⟨x, within, rfl, -⟩ := solvable.solves k j k r member
  exact within k

/-- In no row an entry outweighs all the others, by which it has to be balanced between `-b` and `b`. -/
def Balanced (M : Matrix (Fin n) (Fin n) ℝ) (b : ℝ) : Prop :=
  ∀ i k, |M i k| * b + 1 ≤ ∑ l ∈ Finset.univ.erase k, |M i l| * b

/-- A row that is balanced can be solved with any value for one entry of the column: the others take the same part of
    their greatest contributions. -/
theorem Balanced.solvableRowwise (balanced : Balanced M b) (nonneg : 0 ≤ b) :
    SolvableRowwise M (fun _ _ => -b) fun _ _ => b := by
  refine ⟨fun _ _ => by linarith, fun i j k r inside => ?_⟩
  have bound : |r| ≤ b := abs_le.2 inside
  obtain ⟨d, target, small⟩ : ∃ d : ℝ, (1 : Matrix (Fin n) (Fin n) ℝ) i j = d ∧ |d| ≤ 1 := by
    refine ⟨_, rfl, ?_⟩
    rw [Matrix.one_apply]
    split_ifs <;> simp
  have weight := balanced i k
  have product : |M i k * r| ≤ |M i k| * b := by
    rw [abs_mul]
    exact mul_le_mul_of_nonneg_left bound (abs_nonneg _)
  set others := ∑ l ∈ Finset.univ.erase k, |M i l| * b with same
  have positive : 0 < others := by
    have : 0 ≤ |M i k| * b := by positivity
    linarith
  have part : |(d - M i k * r) / others| ≤ 1 := by
    rw [abs_div, abs_of_pos positive, div_le_one positive]
    exact (abs_sub _ _).trans (by linarith)
  set t := (d - M i k * r) / others
  refine ⟨Function.update (fun l => t * (SignType.sign (M i l) * b)) k r, fun l => abs_le.1 ?_,
    Function.update_self _ _ _, ?_⟩
  · by_cases here : l = k
    · rw [here, Function.update_self]
      exact bound
    · have sign : |(SignType.sign (M i l) : ℝ)| ≤ 1 := by
        cases SignType.sign (M i l) <;> simp
      rw [Function.update_of_ne here, abs_mul, abs_mul, abs_of_nonneg nonneg]
      exact (mul_le_of_le_one_left (by positivity) part).trans (mul_le_of_le_one_left nonneg sign)
  · have rest : ∑ l ∈ Finset.univ.erase k, M i l * Function.update (fun l => t * (SignType.sign (M i l) * b)) k r l =
        d - M i k * r := by
      calc _ = ∑ l ∈ Finset.univ.erase k, t * (|M i l| * b) := by
            refine Finset.sum_congr rfl fun l member => ?_
            rw [Function.update_of_ne (Finset.ne_of_mem_erase member), ← self_mul_sign (M i l)]
            ring
        _ = d - M i k * r := by rw [← Finset.mul_sum, ← same, div_mul_cancel₀ _ positive.ne']
    rw [target, ← Finset.add_sum_erase _ _ (Finset.mem_univ k), rest, Function.update_self]
    ring

end

namespace Store

variable {store : Store}

/-! ## Posting the constraints -/

theorem productEntry_rows {n : Nat} (entry cell : Fin n → Fin n → Var) (i j : Fin n) :
    productEntry (rows entry) (rows cell) i j = .total (List.ofFn fun k => .var (entry i k) * .var (cell k j)) := by
  have row : (rows entry)[(i : Nat)]?.getD [] = List.ofFn (entry i) := by
    simp [rows]
  have column : (rows cell).filterMap (fun r => r[(j : Nat)]?) = List.ofFn fun k => cell k j := by
    have whole (k : Fin n) : (List.ofFn (cell k))[(j : Nat)]? = some (cell k j) := by simp
    rw [rows, List.ofFn_eq_map, List.filterMap_map, List.ofFn_eq_map]
    exact (List.filterMap_congr fun k _ => whole k).trans (congrFun List.filterMap_eq_map _)
  have products :
      List.zipWith (fun a b => Expr.var a * Expr.var b) (List.ofFn (entry i)) (List.ofFn fun k => cell k j) =
      List.ofFn fun k => .var (entry i k) * .var (cell k j) := by
    refine List.ext_getElem (by simp) fun k inside _ => ?_
    simp
  rw [productEntry, row, column, products]

def entryConstraint {n : Nat} (entry cell : Fin n → Fin n → Var) (i j : Fin n) : Constraint :=
  .formula (.ofExpr (productEntry (rows entry) (rows cell) i j) (.point (if i = j then 1.0 else 0.0)))

def inverseConstraints {n : Nat} (entry cell : Fin n → Fin n → Var) : List Constraint :=
  (List.finRange n).flatMap fun i => (List.finRange n).map (entryConstraint entry cell i)

/-- The store after the constraints of an inverse have been posted. -/
def inverting {n : Nat} (store : Store) (entry cell : Fin n → Fin n → Var) : Store :=
  ((inverseConstraints entry cell).foldl posting store.openBatch).commit

theorem foldl_posting (store : Store) (constraints : List Constraint) :
    (constraints.foldl posting store).vars = store.vars ∧
      (constraints.foldl posting store).constraints.toList = store.constraints.toList ++ constraints := by
  induction constraints generalizing store with
  | nil => simp
  | cons c constraints ih =>
      obtain ⟨vars, listed⟩ := ih (store.posting c)
      exact ⟨vars, listed.trans (by simp [posting])⟩

theorem extends_inverting {n : Nat} (entry cell : Fin n → Fin n → Var) :
    store.Extends (store.inverting entry cell) [] (inverseConstraints entry cell) := by
  obtain ⟨vars, listed⟩ := store.openBatch.foldl_posting (inverseConstraints entry cell)
  refine ⟨?_, listed⟩
  change (((inverseConstraints entry cell).foldl posting store.openBatch).vars).arena.toList = _
  rw [vars]
  simp [openBatch]

/-- Steps that post constraints over the variables that were there at the beginning. -/
theorem forM_posting {α : Type} {step : α → StoreM PUnit} {posts : α → List Constraint} {as : List α}
    (each : ∀ a ∈ as, ∀ before : Store, before.vars = store.vars →
      step a before = .ok ⟨⟩ ((posts a).foldl posting before)) {before : Store} (same : before.vars = store.vars) :
    as.forM step before = .ok ⟨⟩ ((as.flatMap posts).foldl posting before) := by
  induction as generalizing before with
  | nil => rfl
  | cons a as ih =>
      have first := each a (by simp) before same
      have rest := ih (fun b member => each b (by simp [member])) ((foldl_posting before (posts a)).1.trans same)
      rw [List.flatMap_cons, List.foldl_append, ← rest]
      change (step a >>= fun _ => as.forM step) before = _
      simp only [Bind.bind, EStateM.bind, first]

/-- Over variables that exist, the constraints of an inverse are posted, and nothing else is done. -/
theorem encodeInverse_eq {n : Nat} {entry cell : Fin n → Fin n → Var} (positive : 0 < n)
    (entries : ∀ i k, store.vars.contains (entry i k) = true) (cells : ∀ k j, store.vars.contains (cell k j) = true) :
    encodeInverse (rows entry) (rows cell) store = .ok () (store.inverting entry cell) := by
  have square (what : String) (entry : Fin n → Fin n → Var) : checkSquare what (rows entry) n = .ok () := by
    have lengths : ¬ (rows entry).any (fun row => row.length ≠ n) := by
      simp only [rows, List.any_eq_true, List.mem_ofFn, not_exists, not_and]
      rintro _ ⟨i, rfl⟩
      simp
    rw [checkSquare, if_neg (not_or.2 ⟨by simp [rows], lengths⟩)]
  have known : ∀ row ∈ rows entry ++ rows cell, ∀ v ∈ row, store.vars.contains v = true := by
    intro row member v inRow
    simp only [rows, List.mem_append, List.mem_ofFn] at member
    obtain ⟨i, rfl⟩ | ⟨k, rfl⟩ := member
    · obtain ⟨k, rfl⟩ := List.mem_ofFn.1 inRow
      exact entries i k
    · obtain ⟨j, rfl⟩ := List.mem_ofFn.1 inRow
      exact cells k j
  have checked : ((rows entry ++ rows cell).forM checkVars) store = .ok () store := by
    have each (row : List Var) (member : row ∈ rows entry ++ rows cell) (before : Store) (same : before = store) :
        Ensures (checkVars row) before (fun _ after => after = store) fun _ _ => False := by
      rw [same, Ensures, checkVars_eq_ok (known row member)]
    obtain ⟨_, _, ran, rfl⟩ := (ensures_forM each rfl).exists_ok
    exact ran
  have post (i j : Fin n) (before : Store) (same : before.vars = store.openBatch.vars) :
      postExpr (productEntry (rows entry) (rows cell) i j) (.point (if (i : Nat) = j then 1.0 else 0.0)) before =
        .ok ⟨⟩ ([entryConstraint entry cell i j].foldl posting before) := by
    have some : (Interval.point (if (i : Nat) = j then 1.0 else 0.0)).isEmpty = false := by
      split_ifs <;> rfl
    have contains (v : Var) (occurs : v ∈ (productEntry (rows entry) (rows cell) i j).occurrences) :
        before.vars.contains v = true := by
      have member : v ∈ (rows entry).flatten ++ (rows cell).flatten := mem_of_mem_productEntry occurs
      rw [← List.flatten_append] at member
      obtain ⟨row, listed, inRow⟩ := List.mem_flatten.1 member
      rw [same]
      exact known row listed v inRow
    rw [postExpr_eq_ok some contains]
    simp only [List.foldl_cons, List.foldl_nil, entryConstraint, Fin.ext_iff]
  let posts : StoreM Unit := (List.range n).forM fun i => (List.range n).forM fun j =>
    postExpr (productEntry (rows entry) (rows cell) i j) (.point (if i = j then 1.0 else 0.0))
  have posted : posts store.openBatch = .ok () ((inverseConstraints entry cell).foldl posting store.openBatch) := by
    have numbered : posts = (List.finRange n).forM fun i => (List.finRange n).forM fun j =>
        postExpr (productEntry (rows entry) (rows cell) i j) (.point (if (i : Nat) = j then 1.0 else 0.0)) := by
      simp only [posts, ← List.map_coe_finRange_eq_range, List.forM_eq_forM, List.forM_map]
    rw [numbered]
    simp only [inverseConstraints, List.map_eq_flatMap]
    exact forM_posting (fun i _ before same => forM_posting (fun j _ => post i j) same) rfl
  have size : (rows entry).length = n := by simp [rows]
  simp only [encodeInverse, size, if_neg positive.ne', square, orFail, pure_bind]
  have ran : batch posts store = .ok () (store.inverting entry cell) := by
    rw [batch, posted]
    rfl
  simpa only [Bind.bind, EStateM.bind, checked] using ran

end Store

/-! ## What the constraints say and keep -/

section

variable {n : Nat} {M low high : Matrix (Fin n) (Fin n) ℝ} {entry cell : Fin n → Fin n → Var} {σ τ : Assignment}

/-- The matrix as which variables are read. -/
noncomputable def readings (σ : Assignment) (entry : Fin n → Fin n → Var) : Matrix (Fin n) (Fin n) ℝ :=
  .of fun i k => (σ (entry i k)).reading

open Store (entryConstraint inverseConstraints productEntry_rows)

theorem satisfied_entryConstraint_iff {i j : Fin n} :
    (entryConstraint entry cell i j).Satisfied σ ↔
      (readings σ entry * readings σ cell) i j = (1 : Matrix (Fin n) (Fin n) ℝ) i j := by
  have leaves (e : Expr) (member : e ∈ List.ofFn fun k => Expr.var (entry i k) * Expr.var (cell k j)) :
      e.FiniteConstants ∧ e.Defined σ := by
    obtain ⟨k, rfl⟩ := List.mem_ofFn.1 member
    exact ⟨⟨trivial, trivial⟩, trivial, trivial⟩
  have target {r : ℝ} : (Interval.point (if i = j then 1.0 else 0.0)).Encloses (r : EReal) ↔
      r = (1 : Matrix (Fin n) (Fin n) ℝ) i j := by
    rw [Matrix.one_apply]
    split_ifs
    · exact Interval.encloses_point_iff Binary64.isNumber_one (by rw [Binary64.value_one, EReal.coe_one])
    · exact Interval.encloses_point_iff Binary64.isNumber_zero (by rw [Binary64.value_zero, EReal.coe_zero])
  have holds : (entryConstraint entry cell i j).Satisfied σ ↔ (Formula.ofExpr (.total (List.ofFn fun k =>
      .var (entry i k) * .var (cell k j))) (.point (if i = j then 1.0 else 0.0))).Holds σ := by
    rw [← productEntry_rows]
    exact Iff.rfl
  rw [holds, Formula.holds_total_iff (fun e member => (leaves e member).1) fun e member => (leaves e member).2, target,
    List.map_ofFn, List.sum_ofFn, Matrix.mul_apply]
  rfl

/-- The constraints of an inverse are satisfied by the inverse only. -/
theorem satisfied_inverseConstraints_iff :
    (∀ c ∈ inverseConstraints entry cell, c.Satisfied σ) ↔ readings σ entry * readings σ cell = 1 := by
  simp only [inverseConstraints, List.forall_mem_flatMap, List.forall_mem_map, List.mem_finRange, forall_true_left,
    satisfied_entryConstraint_iff]
  exact Matrix.ext_iff

theorem exists_of_mem_inverseConstraints {c : Constraint} (member : c ∈ inverseConstraints entry cell) :
    ∃ i j, c = entryConstraint entry cell i j := by
  obtain ⟨i, -, inRow⟩ := List.mem_flatMap.1 member
  obtain ⟨j, -, rfl⟩ := List.mem_map.1 inRow
  exact ⟨i, j, rfl⟩

theorem mem_scope_entryConstraint {i j : Fin n} {v : Var} (inScope : v ∈ (entryConstraint entry cell i j).scope) :
    (∃ k, v = entry i k) ∨ ∃ k, v = cell k j := by
  have occurs : v ∈ (Store.productEntry (Store.rows entry) (Store.rows cell) i j).occurrences :=
    List.mem_eraseDups.1 inScope
  rw [productEntry_rows] at occurs
  obtain ⟨e, listed, occurs⟩ := Expr.exists_of_mem_total occurs
  obtain ⟨k, rfl⟩ := List.mem_ofFn.1 listed
  rcases List.mem_append.1 occurs with left | right
  · exact .inl ⟨k, List.mem_singleton.1 left⟩
  · exact .inr ⟨k, List.mem_singleton.1 right⟩

/-- The assignments that give the cells real values of a box, and that agree with a given one elsewhere. -/
def boxed (cell : Fin n → Fin n → Var) (low high : Matrix (Fin n) (Fin n) ℝ) (σ : Assignment) : Set Assignment :=
  {τ | (∀ v, (∀ k j, v ≠ cell k j) → τ v = σ v) ∧ ∀ k j, ∃ r ∈ Set.Icc (low k j) (high k j), τ (cell k j) = .real r}

theorem exists_boxed (distinct : ∀ {k j l m}, cell k j = cell l m → k = l ∧ j = m) {X : Matrix (Fin n) (Fin n) ℝ}
    (inside : ∀ k j, X k j ∈ Set.Icc (low k j) (high k j)) :
    ∃ τ ∈ boxed cell low high σ, ∀ k j, τ (cell k j) = .real (X k j) := by
  have injective : Function.Injective fun p : Fin n × Fin n => cell p.1 p.2 :=
    fun p q same => Prod.ext_iff.2 (distinct same)
  have given (k j : Fin n) :
      Function.extend (fun p : Fin n × Fin n => cell p.1 p.2) (fun p => Choice.real (X p.1 p.2)) σ
      (cell k j) = .real (X k j) := injective.extend_apply _ _ (k, j)
  refine ⟨_, ⟨fun v other => Function.extend_apply' _ _ _ ?_, fun k j => ⟨_, inside k j, given k j⟩⟩, given⟩
  rintro ⟨p, same⟩
  exact other p.1 p.2 same.symm

/-- If the row can be solved within a box, then every value of the second box for a cell has a support in the first one:
    the column is replaced by a solution. -/
theorem SolvesRows.supported {low' high' : Matrix (Fin n) (Fin n) ℝ} (solvable : SolvesRows M low high low' high')
    (distinct : ∀ {k j l m}, cell k j = cell l m → k = l ∧ j = m) (apart : ∀ i k l m, entry i k ≠ cell l m)
    (reads : ∀ i k, (σ (entry i k)).reading = M i k) (i j : Fin n) :
    Supported (boxed cell low high σ) (boxed cell low' high' σ) (entryConstraint entry cell i j) := by
  have support {τ : Assignment} (member : τ ∈ boxed cell low' high' σ) (k : Fin n) :
      ∃ υ ∈ boxed cell low high σ, υ (cell k j) = τ (cell k j) ∧
        Keeps υ (entryConstraint entry cell i j).propagate fun _ => True := by
    obtain ⟨r, inside, same⟩ := member.2 k j
    obtain ⟨x, within, here, solved⟩ := solvable.solves i j k r inside
    have column : ∀ l m, (if m = j then x l else low' l m) ∈ Set.Icc (low l m) (high l m) := by
      intro l m
      split_ifs with same
      · exact same ▸ within l
      · exact solvable.inside l m ⟨le_rfl, solvable.ordered l m⟩
    obtain ⟨υ, member', given⟩ := exists_boxed (σ := σ) distinct column
    have value (l : Fin n) : υ (cell l j) = .real (x l) := by rw [given, if_pos rfl]
    have row (l : Fin n) : (υ (entry i l)).reading = M i l := by rw [member'.1 _ (apart i l), reads]
    refine ⟨υ, member', by rw [value, here, same], Formula.keeps (satisfied_entryConstraint_iff.2 ?_)⟩
    rw [Matrix.mul_apply, ← solved]
    refine Finset.sum_congr rfl fun l _ => ?_
    rw [readings, readings, Matrix.of_apply, Matrix.of_apply, row, value]
    rfl
  constructor
  · rintro τ ⟨others, box⟩
    refine ⟨others, fun k j => ?_⟩
    obtain ⟨r, inside, same⟩ := box k j
    exact ⟨r, solvable.inside k j inside, same⟩
  · obtain ⟨τ, member, -⟩ := exists_boxed (σ := σ) distinct fun k j => ⟨le_rfl, solvable.ordered k j⟩
    obtain ⟨υ, member', -, keeps⟩ := support member i
    exact ⟨υ, member', keeps⟩
  · intro τ member v inScope
    rcases mem_scope_entryConstraint inScope with ⟨k, rfl⟩ | ⟨k, rfl⟩
    · obtain ⟨υ, member', -, keeps⟩ := support member i
      exact ⟨υ, member', by rw [member'.1 _ (apart i k), member.1 _ (apart i k)], keeps⟩
    · obtain ⟨υ, member', same, keeps⟩ := support member k
      exact ⟨υ, member', same, keeps⟩

end

/-! ## Propagation -/

/-- The variable is real and has one value only. -/
def Variables.IsConstant (vars : Variables) (v : Var) (r : ℝ) : Prop :=
  ∃ x d, vars.get? v = some x ∧ x.domain = .real d ∧ value d.interval.lo = r ∧ value d.interval.hi = r

section

variable {store middle posted : Store} {batches : List Store} {n : Nat} {entry cell : Fin n → Fin n → Var}
  {M low high : Matrix (Fin n) (Fin n) ℝ} {name : String} {bound precision : Float} {b : ℝ}

open Store (encodeInverse newGrid propagate rows entryConstraint inverseConstraints gridDomain of_newGrid
  valid_of_newGrid gridVar gridVar_injective)

/-- Suppose that there are a box within the domains of the cells and for each invocation a next box, whose values solve
    every row within the one before. Then a propagation keeps the last box. -/
theorem Store.Consistent.propagate_boxed (consistent : posted.Consistent) (low high : Nat → Matrix (Fin n) (Fin n) ℝ)
    (listed : ∀ c, c ∈ posted.constraints ↔ c ∈ inverseConstraints entry cell)
    (distinct : ∀ {k j l m}, cell k j = cell l m → k = l ∧ j = m) (apart : ∀ i k l m, entry i k ≠ cell l m)
    (constant : ∀ i k, posted.vars.IsConstant (entry i k) (M i k))
    (cells : ∀ k j, ∃ x, posted.vars.get? (cell k j) = some x ∧ x.domain = gridDomain bound precision)
    (finite : value bound = b) (start : ∀ k j, -b ≤ low 0 k j ∧ low 0 k j ≤ high 0 k j ∧ high 0 k j ≤ b)
    (solvable : ∀ i < posted.propagation.invocations, SolvesRows M (low i) (high i) (low (i + 1)) (high (i + 1))) :
    ∃ after, propagate posted = .ok () after ∧ ∀ k j, ∃ x d, after.vars.get? (cell k j) = some x ∧
      x.domain = .real d ∧ d.interval.Encloses (low posted.propagation.invocations k j : ℝ) ∧
      d.interval.Encloses (high posted.propagation.invocations k j : ℝ) := by
  let σ : Assignment := fun v => .real (value (posted.vars.bounds v).lo).toReal
  have given (i k : Fin n) : σ (entry i k) = .real (M i k) := by
    obtain ⟨x, d, found, domain, lo, -⟩ := constant i k
    simp only [σ, Variables.bounds, found, domain, Domain.hull, lo, EReal.toReal_coe]
  have reads (i k : Fin n) : (σ (entry i k)).reading = M i k := by
    rw [given]
    rfl
  let inside (v : Var) : Prop := (∃ i k, v = entry i k) ∨ ∃ k j, v = cell k j
  have form {c : Constraint} (member : c ∈ posted.constraints) : ∃ i j, c = entryConstraint entry cell i j :=
    exists_of_mem_inverseConstraints ((listed c).1 member)
  have more (v : Var) (concerns : posted.Concerns v) : inside v := by
    obtain ⟨c, member, inScope⟩ := concerns
    obtain ⟨i, j, rfl⟩ := form member
    rcases mem_scope_entryConstraint inScope with ⟨k, rfl⟩ | ⟨k, rfl⟩
    · exact .inl ⟨i, k, rfl⟩
    · exact .inr ⟨k, j, rfl⟩
  have admits : ∀ τ ∈ boxed cell (low 0) (high 0) σ, posted.vars.AdmitsOn inside τ := by
    rintro τ ⟨others, box⟩ v x (⟨i, k, rfl⟩ | ⟨k, j, rfl⟩) found
    · obtain ⟨y, d, found', domain, lo, hi⟩ := constant i k
      obtain rfl := Option.some.inj (found'.symm.trans found)
      have sound := consistent.sound _ (Array.mem_of_getElem? found)
      rw [domain] at sound
      rw [others _ (apart i k), given, domain]
      exact ⟨sound.1, lo.le, hi.ge⟩
    · obtain ⟨y, found', domain⟩ := cells k j
      obtain rfl := Option.some.inj (found'.symm.trans found)
      obtain ⟨r, ⟨lower, upper⟩, same⟩ := box k j
      rw [same, domain]
      refine Interval.encloses_ofBounds (fun _ => ?_) fun _ => ?_
      · rw [Binary64.value_neg, finite, ← EReal.coe_neg, EReal.coe_le_coe_iff]
        exact (start k j).1.trans lower
      · rw [finite, EReal.coe_le_coe_iff]
        exact upper.trans (start k j).2.2
  have builtIn (c : Constraint) (member : c ∈ posted.constraints) : c.IsBuiltIn := by
    obtain ⟨i, j, rfl⟩ := form member
    exact ⟨_, _, rfl⟩
  have plain (c : Constraint) (member : c ∈ posted.constraints) : FailsPlainly c.propagate := by
    obtain ⟨i, j, rfl⟩ := form member
    exact .formula _
  let among (i : Nat) : Set Assignment := boxed cell (low i) (high i) σ
  have supported (i : Nat) (less : i < posted.propagation.invocations) (c : Constraint)
      (member : c ∈ posted.constraints) : Supported (among i) (among (i + 1)) c := by
    obtain ⟨row, column, rfl⟩ := form member
    exact (solvable i less).supported distinct apart reads row column
  have ordered (k j : Fin n) : low posted.propagation.invocations k j ≤ high posted.propagation.invocations k j := by
    cases last : posted.propagation.invocations with
    | zero => exact (start k j).2.1
    | succ i => exact (solvable i (by omega)).ordered k j
  obtain ⟨after, ran, kept⟩ := consistent.propagate_supported builtIn plain supported more admits
  refine ⟨after, ran, fun k j => ?_⟩
  have known : after.vars.contains (cell k j) = true := by
    have ensured := Procedure.propagate.ensures posted consistent
    rw [Ensures, ran] at ensured
    obtain ⟨x, found, -⟩ := cells k j
    exact decide_eq_true ((Array.getElem?_eq_some_iff.1 found).1.trans_le ensured.2.more)
  obtain ⟨x, found⟩ := Store.get?_of_contains known
  have encloses {X : Matrix (Fin n) (Fin n) ℝ}
      (box : ∀ k j, X k j ∈ Set.Icc (low posted.propagation.invocations k j) (high posted.propagation.invocations k j)) :
      x.domain.Admits (.real (X k j)) := by
    obtain ⟨τ, member, same⟩ := exists_boxed (σ := σ) distinct box
    exact same k j ▸ kept τ member (cell k j) x (.inr ⟨k, j, rfl⟩) found
  have lower := encloses fun k j => ⟨le_rfl, ordered k j⟩
  have upper := encloses fun k j => ⟨ordered k j, le_rfl⟩
  cases domain : x.domain with
  | finite s => exact (domain ▸ lower : (Domain.finite s).Admits (.real _)).elim
  | real d =>
      rw [domain] at lower upper
      exact ⟨x, d, found, domain, lower, upper⟩

/-- The store with one more variable, which is constant. -/
def Store.holding (store : Store) (name : String) (x : Float) : Store :=
  store.extended name (.real { interval := .ofBounds x x, precision := 0.5 })

theorem Reachable.holding {name : String} {x : Float} (reachable : Reachable batches store)
    (free : store.vars.names.contains name = false) (number : IsNumber x) :
    Reachable batches (store.holding name x) := by
  have created : Store.newReal name x x 0.5 store = .ok ⟨store.vars.size⟩ (store.holding name x) := by
    have ordered : ¬ x < x := by
      rw [Binary64.not_lt_iff number number]
    rw [Store.newReal_eq (by decide +kernel) number number ordered, Store.addVar_eq, if_neg (Bool.eq_false_iff.1 free)]
    rfl
  exact .succeeded reachable (.newReal ..) created

theorem value_of_eq_ofInt {x : Float} {n : Int} (same : x = Binary64.ofInt n) (small : |n| ≤ 2 ^ 53) :
    value x = (n : ℝ) := by
  rw [same, Binary64.value_ofInt_exact small]

/-- The bounds of a constant are the same integer. -/
theorem isConstant_of_ofInt {vars : Variables} {v : Var} {y : Variable} {x : Float} {n : Int}
    (found : vars.get? v = some y) (domain : y.domain = .real { interval := .ofBounds x x, precision })
    (same : x = Binary64.ofInt n) (small : |n| ≤ 2 ^ 53) : vars.IsConstant v n := by
  have bounds : Interval.ofBounds x x = ⟨x, x⟩ :=
    Interval.ofBounds_of_isNumber (same ▸ Binary64.isNumber_ofInt n) (same ▸ Binary64.isNumber_ofInt n)
  refine ⟨y, _, found, domain, ?_⟩
  rw [bounds]
  exact ⟨value_of_eq_ofInt same small, value_of_eq_ofInt same small⟩

/-- Posting the constraints of an inverse over a new grid succeeds, and they are satisfied by the inverses only. A
    propagation fails for want of solutions only. It does not fail, and keeps a box, if every row can be solved within
    the box, even if there is no inverse. For balanced rows the box is the whole grid, so all cells stay wide. For other
    rows it is enough that each invocation leaves a box, smaller than the one before, whose values solve the rows
    within that one: since small changes call for no invocation, there may be few of them. -/
theorem Reachable.inverse_rowwise (reachable : Reachable batches store) (none : store.constraints = #[])
    (constant : ∀ i k, store.vars.IsConstant (entry i k) (M i k))
    (made : newGrid name n bound precision store = .ok (rows cell) middle) (finite : value bound = b) :
    ∃ posted, encodeInverse (rows entry) (rows cell) middle = .ok () posted ∧
      (∀ σ : Assignment, (∀ c ∈ posted.constraints, c.Satisfied σ) ↔ readings σ entry * readings σ cell = 1) ∧
      (∀ failure after, propagate posted = .error failure after → failure.Infeasible) ∧
      (∀ low high, SolvableRowwise M low high → (∀ k j, -b ≤ low k j ∧ high k j ≤ b) →
        ∃ after, propagate posted = .ok () after ∧ ∀ k j, ∃ x d, after.vars.get? (cell k j) = some x ∧
          x.domain = .real d ∧ d.interval.Encloses (low k j : ℝ) ∧ d.interval.Encloses (high k j : ℝ)) ∧
      (Balanced M b → precision < (Interval.ofBounds (-bound) bound).width →
        ∃ after, propagate posted = .ok () after ∧ ∀ k j, ∃ x d, after.vars.get? (cell k j) = some x ∧
          x.domain = .real d ∧ precision < d.interval.width) ∧
      ∀ low high : Nat → Matrix (Fin n) (Fin n) ℝ,
        (∀ k j, -b ≤ low 0 k j ∧ low 0 k j ≤ high 0 k j ∧ high 0 k j ≤ b) →
        (∀ i < posted.propagation.invocations, SolvesRows M (low i) (high i) (low (i + 1)) (high (i + 1))) →
        ∃ after, propagate posted = .ok () after ∧ ∀ k j, ∃ x d, after.vars.get? (cell k j) = some x ∧
          x.domain = .real d ∧ d.interval.Encloses (low posted.propagation.invocations k j : ℝ) ∧
          d.interval.Encloses (high posted.propagation.invocations k j : ℝ) := by
  obtain ⟨positive, number, nonneg⟩ := valid_of_newGrid made
  obtain ⟨same, constraints, old, cells⟩ := of_newGrid made
  have reached : Reachable batches middle := .succeeded reachable (.newGrid ..) made
  have entries (i k : Fin n) : ∃ x d, middle.vars.get? (entry i k) = some x ∧ x.domain = .real d ∧
      value d.interval.lo = M i k ∧ value d.interval.hi = M i k := by
    obtain ⟨x, d, found, rest⟩ := constant i k
    exact ⟨x, d, (old _ (Array.getElem?_eq_some_iff.1 found).1).trans found, rest⟩
  have ran := Store.encodeInverse_eq positive
    (fun i k => (entries i k).elim fun x ⟨d, found, _⟩ => contains_of_get? found)
    fun k j => (cells k j).elim fun x ⟨found, _⟩ => contains_of_get? found
  have extended := middle.extends_inverting entry cell
  set posted := middle.inverting entry cell
  have reached' : Reachable batches posted := .succeeded reached (.encodeInverse ..) ran
  have consistent := reached'.invariant.1
  have listed (c : Constraint) : c ∈ posted.constraints ↔ c ∈ inverseConstraints entry cell := by
    rw [← Array.mem_toList_iff, extended.constraints, constraints, none]
    simp
  have same' (v : Var) : posted.vars.get? v = middle.vars.get? v :=
    congrArg (·[v.index]?) (Array.toList_inj.1 (by simpa using extended.arena))
  have distinct {k j l m : Fin n} (equal : cell k j = cell l m) : k = l ∧ j = m := by
    rw [same, same] at equal
    exact gridVar_injective equal
  have apart (i k l m : Fin n) : entry i k ≠ cell l m := by
    obtain ⟨x, d, found, -⟩ := constant i k
    intro equal
    have old : (entry i k).index < store.vars.size := (Array.getElem?_eq_some_iff.1 found).1
    have new : store.vars.size ≤ (cell l m).index := by
      rw [same, gridVar, Nat.add_assoc]
      exact Nat.le_add_right _ _
    exact (old.trans_le new).ne (congrArg Var.index equal)
  have boxes (low high : Nat → Matrix (Fin n) (Fin n) ℝ) :=
    consistent.propagate_boxed low high listed distinct apart (fun i k => by
      obtain ⟨x, d, found, rest⟩ := entries i k
      exact ⟨x, d, (same' _).trans found, rest⟩) (fun k j => by
      obtain ⟨x, found, rest⟩ := cells k j
      exact ⟨x, (same' _).trans found, rest⟩) finite
  have box {low high : Matrix (Fin n) (Fin n) ℝ} (solvable : SolvableRowwise M low high)
      (within : ∀ k j, -b ≤ low k j ∧ high k j ≤ b) :=
    boxes (fun _ => low) (fun _ => high) (fun k j => ⟨(within k j).1, solvable.ordered k j, (within k j).2⟩)
      fun _ _ => solvable.solvesRows
  have form {c : Constraint} (member : c ∈ posted.constraints) : ∃ i j, c = entryConstraint entry cell i j :=
    exists_of_mem_inverseConstraints ((listed c).1 member)
  refine ⟨posted, ran, fun σ => ?_, fun failure after => consistent.infeasible_of_propagate (fun c member => ?_)
    fun c member => ?_, fun low high => box, fun balanced fine => ?_, boxes⟩
  · simp only [listed]
    exact satisfied_inverseConstraints_iff
  · obtain ⟨i, j, rfl⟩ := form member
    exact ⟨_, _, rfl⟩
  · obtain ⟨i, j, rfl⟩ := form member
    exact .formula _
  · have zero : -b ≤ 0 ∧ 0 ≤ b := by
      rw [finite, EReal.coe_nonneg] at nonneg
      exact ⟨neg_nonpos.2 nonneg, nonneg⟩
    obtain ⟨after, ran, wide⟩ := box (balanced.solvableRowwise zero.2) fun _ _ => ⟨le_rfl, le_rfl⟩
    refine ⟨after, ran, fun k j => ?_⟩
    obtain ⟨x, d, found, domain, lower, upper⟩ := wide k j
    have low : value (-bound) = (-b : ℝ) := by rw [Binary64.value_neg, finite, EReal.coe_neg]
    have bounds : Interval.ofBounds (-bound) bound = ⟨-bound, bound⟩ :=
      Interval.ofBounds_of_isNumber (Binary64.isNumber_neg.2 number) number
    have within : (Interval.ofBounds (-bound) bound).Within d.interval := by
      rw [bounds]
      exact ⟨⟨Binary64.isNumber_neg.2 number, number⟩, lower.proper, low ▸ lower.lower, finite ▸ upper.upper⟩
    have encloses : (Interval.ofBounds (-bound) bound).Encloses ((0 : ℝ) : EReal) := by
      refine Interval.encloses_ofBounds (fun _ => ?_) fun _ => ?_
      · exact low ▸ EReal.coe_le_coe_iff.2 zero.1
      · exact finite ▸ EReal.coe_le_coe_iff.2 zero.2
    obtain ⟨precise, -, less⟩ := Binary64.lt_iff.1 fine
    have width := within.width_le encloses
    exact ⟨x, d, found, domain, Binary64.lt_iff.2
      ⟨precise, (within.encloses encloses).rounds_width.isNumber, less.trans_le width⟩⟩

/-! ## Singular matrices -/

theorem contains_fresh (name : String) : Store.fresh.vars.names.contains name = false := by
  simp [Store.fresh, Variables.empty]

def Store.one : Store :=
  Store.fresh.holding "one" 1.0

/-- Constants for a matrix whose second row is twice the first one. -/
def Store.doubling : Store :=
  (Store.one.holding "two" 2.0).holding "four" 4.0

theorem reachable_one : Reachable [] Store.one :=
  Store.reachable_fresh.holding (contains_fresh _) Binary64.isNumber_one

theorem contains_one (name : String) : Store.one.vars.names.contains name = ("one" == name) := by
  rw [Store.one, Store.holding, Store.names_contains_extended, contains_fresh, Bool.or_false]

theorem contains_doubling (name : String) :
    Store.doubling.vars.names.contains name = ("four" == name || ("two" == name || "one" == name)) := by
  simp only [Store.doubling, Store.holding, Store.names_contains_extended, contains_one]

theorem reachable_doubling : Reachable [] Store.doubling := by
  refine (reachable_one.holding ?_ (by rfl)).holding ?_ (by rfl)
  · exact (contains_one _).trans (by decide)
  · rw [Store.holding, Store.names_contains_extended, contains_one]
    decide

theorem isConstant_doubling (i k : Fin 2) :
    Store.doubling.vars.IsConstant ⟨i + k⟩ ((!![1, 2; 2, 4] : Matrix (Fin 2) (Fin 2) ℝ) i k) := by
  fin_cases i <;> fin_cases k
  · exact_mod_cast isConstant_of_ofInt (n := 1) rfl rfl (by decide +kernel) (by norm_num)
  · exact_mod_cast isConstant_of_ofInt (n := 2) rfl rfl (by decide +kernel) (by norm_num)
  · exact_mod_cast isConstant_of_ofInt (n := 2) rfl rfl (by decide +kernel) (by norm_num)
  · exact_mod_cast isConstant_of_ofInt (n := 4) rfl rfl (by decide +kernel) (by norm_num)

/-- Bounds of columns whose second entry is half as large as the first one. -/
noncomputable def halving (w : ℝ) : Matrix (Fin 2) (Fin 2) ℝ :=
  fun k _ => w / (k + 1)

/-- The rows of the matrix with the entries 1, 2, 2 and 4 say almost the same of a column. With each invocation the
    values that solve one of them get one closer to zero. -/
theorem solvesRows_halving {w : ℝ} (large : 1 ≤ w) :
    SolvesRows !![1, 2; 2, 4] (-halving w) (halving w) (-halving (w - 1)) (halving (w - 1)) := by
  refine ⟨fun k j => ?_, fun i j k r inside => ?_⟩
  · have nonneg : 0 ≤ halving (w - 1) k j := div_nonneg (by linarith) (by positivity)
    rw [Matrix.neg_apply]
    linarith
  · obtain ⟨e, small, row⟩ : ∃ e : ℝ, |e| ≤ 1 ∧ ∀ x : Fin 2 → ℝ, x 0 + 2 * x 1 = e →
        ∑ l, !![1, 2; 2, (4 : ℝ)] i l * x l = (1 : Matrix (Fin 2) (Fin 2) ℝ) i j := by
      fin_cases i <;> fin_cases j
      · exact ⟨1, by simp, fun x solves => by simpa using solves⟩
      · exact ⟨0, by simp, fun x solves => by simpa using solves⟩
      · exact ⟨0, by simp, fun x solves => by simp; linarith⟩
      · exact ⟨1 / 2, by norm_num [abs_le], fun x solves => by simp; linarith⟩
    obtain ⟨above, below⟩ := abs_le.1 small
    fin_cases k
    · refine ⟨![r, (e - r) / 2], fun l => ?_, rfl, row _ (by simp; ring)⟩
      fin_cases l <;> norm_num [halving] at inside ⊢ <;> constructor <;> linarith
    · refine ⟨![e - 2 * r, r], fun l => ?_, rfl, row _ (by simp)⟩
      fin_cases l <;> norm_num [halving] at inside ⊢ <;> constructor <;> linarith

/-- The inverse of a matrix of ones, which there is not, and of the matrix with the entries 1, 2, 2 and 4. -/
theorem inverse_rowwise_singular : (∃ (store middle posted after : Store) (cell : Fin 3 → Fin 3 → Var),
    (Matrix.of fun _ _ : Fin 3 => (1 : ℝ)).det = 0 ∧ Reachable [] store ∧ store.constraints = #[] ∧
    store.vars.IsConstant ⟨0⟩ 1 ∧ newGrid "X" 3 2.0 0.5 store = .ok (rows cell) middle ∧
    encodeInverse (rows fun _ _ : Fin 3 => ⟨0⟩) (rows cell) middle = .ok () posted ∧ propagate posted = .ok () after ∧
    ∀ k j, ∃ x d, after.vars.get? (cell k j) = some x ∧ x.domain = .real d ∧ 0.5 < d.interval.width) ∧
    ∃ (store middle posted after : Store) (entry cell : Fin 2 → Fin 2 → Var),
      (!![1, 2; 2, 4] : Matrix (Fin 2) (Fin 2) ℝ).det = 0 ∧ Reachable [] store ∧ store.constraints = #[] ∧
      (∀ i k, store.vars.IsConstant (entry i k) ((!![1, 2; 2, 4] : Matrix (Fin 2) (Fin 2) ℝ) i k)) ∧
      newGrid "X" 2 100.0 1e-9 store = .ok (rows cell) middle ∧
      encodeInverse (rows entry) (rows cell) middle = .ok () posted ∧ propagate posted = .ok () after ∧
      ∀ k j, ∃ x d, after.vars.get? (cell k j) = some x ∧ x.domain = .real d ∧
        d.interval.Encloses (-(94 / (k + 1)) : ℝ) ∧ d.interval.Encloses (94 / (k + 1) : ℝ) := by
  constructor
  · have singular : (Matrix.of fun _ _ : Fin 3 => (1 : ℝ)).det = 0 :=
      Matrix.det_zero_of_row_eq (show (0 : Fin 3) ≠ 1 by decide) rfl
    have constant : Store.one.vars.IsConstant ⟨0⟩ 1 := by
      exact_mod_cast isConstant_of_ofInt (n := 1) rfl rfl (by decide +kernel) (by norm_num)
    have two : value 2.0 = (2 : ℝ) := by
      exact_mod_cast value_of_eq_ofInt (n := 2) (by decide +kernel) (by norm_num)
    have free : ∀ x ∈ Store.gridVariables "X" 3 2.0 0.5, ("one" == x.name) = false := by decide +kernel
    have made := Store.newGrid_eq (by decide) (by decide +kernel) (by rfl) (by decide +kernel) (by decide +kernel)
      fun x member => (contains_one _).trans (free x member)
    obtain ⟨posted, ran, -, -, -, wide, -⟩ :=
      Reachable.inverse_rowwise reachable_one rfl (fun _ _ => constant) made two
    have balanced : Balanced (Matrix.of fun _ _ : Fin 3 => (1 : ℝ)) 2 := by
      intro i k
      simp only [Matrix.of_apply, Finset.sum_const, Finset.card_erase_of_mem (Finset.mem_univ k)]
      norm_num
    obtain ⟨after, ended, cells⟩ := wide balanced (by decide +kernel)
    exact ⟨_, _, posted, after, _, singular, reachable_one, rfl, constant, made, ran, ended, cells⟩
  · let entry (i k : Fin 2) : Var := ⟨i + k⟩
    have hundred : value 100.0 = (100 : ℝ) := by
      exact_mod_cast value_of_eq_ofInt (n := 100) (by decide +kernel) (by norm_num)
    have free : ∀ x ∈ Store.gridVariables "X" 2 100.0 1e-9,
        ("four" == x.name || ("two" == x.name || "one" == x.name)) = false := by decide +kernel
    have made := Store.newGrid_eq (by decide) (by decide +kernel) (by rfl) (by decide +kernel) (by decide +kernel)
      fun x member => (contains_doubling _).trans (free x member)
    let middle := (Store.doubling.openBatch.extendedAll (Store.gridVariables "X" 2 100.0 1e-9)).commit
    let cell (k j : Fin 2) : Var := gridVar 3 2 k j
    let posted := middle.inverting entry cell
    have encoded : encodeInverse (rows entry) (rows cell) middle = .ok () posted :=
      Store.encodeInverse_eq (by decide) (by decide +kernel) (by decide +kernel)
    obtain ⟨_, ran, -, -, -, -, wide⟩ :=
      Reachable.inverse_rowwise reachable_doubling rfl isConstant_doubling made hundred
    obtain rfl : _ = posted := (EStateM.Result.ok.inj (ran.symm.trans encoded)).2
    have invocations : posted.propagation.invocations = 6 := by decide +kernel
    have start (k j : Fin 2) : -100 ≤ (-halving (100 - (0 : Nat))) k j ∧
        (-halving (100 - (0 : Nat))) k j ≤ halving (100 - (0 : Nat)) k j ∧ halving (100 - (0 : Nat)) k j ≤ 100 := by
      fin_cases k <;> norm_num [halving]
    have solves (i : Nat) (less : i < posted.propagation.invocations) : SolvesRows !![1, 2; 2, 4]
        (-halving (100 - i)) (halving (100 - i)) (-halving (100 - (i + 1 : Nat))) (halving (100 - (i + 1 : Nat))) := by
      rw [invocations] at less
      have large : (i : ℝ) ≤ 5 := by exact_mod_cast Nat.le_of_lt_succ less
      have next := solvesRows_halving (w := 100 - i) (by linarith)
      rwa [sub_sub, ← Nat.cast_succ] at next
    obtain ⟨after, ended, cells⟩ := wide (fun i => -halving (100 - i)) (fun i => halving (100 - i)) start solves
    have last (k j : Fin 2) : halving (100 - (6 : Nat)) k j = 94 / (k + 1) := by norm_num [halving]
    simp only [invocations, Matrix.neg_apply, last] at cells
    exact ⟨_, _, posted, after, entry, _, by norm_num [Matrix.det_fin_two], reachable_doubling, rfl,
      isConstant_doubling, made, ran, ended, cells⟩

/-- The matrix that consists of a zero is singular, and a propagation does find that it has no inverse. -/
theorem inverse_of_zero_infeasible : ∃ (store middle posted after : Store) (e : Error),
    (Matrix.of fun _ _ : Fin 1 => (0 : ℝ)).det = 0 ∧ Reachable [] store ∧ store.constraints = #[] ∧
    store.vars.IsConstant ⟨0⟩ 0 ∧ newGrid "X" 1 10.0 0.5 store = .ok [[⟨1⟩]] middle ∧
    0.5 < (Interval.ofBounds (-10.0) 10.0).width ∧ encodeInverse [[⟨0⟩]] [[⟨1⟩]] middle = .ok () posted ∧
    propagate posted = .error (.error e) after ∧ e.kind = .infeasible := by
  let store := Store.fresh.holding "m" 0.0
  let middle := (store.openBatch.extendedAll (Store.gridVariables "X" 1 10.0 0.5)).commit
  let posted := middle.inverting (fun _ _ : Fin 1 => ⟨0⟩) fun _ _ => ⟨1⟩
  have reachable : Reachable [] store := Store.reachable_fresh.holding (contains_fresh _) Binary64.isNumber_zero
  have made : newGrid "X" 1 10.0 0.5 store = .ok [[⟨1⟩]] middle := by
    refine Store.newGrid_eq (by decide) (by decide +kernel) (by rfl) (by decide +kernel) (by decide +kernel) ?_
    have free : ∀ x ∈ Store.gridVariables "X" 1 10.0 0.5, ("m" == x.name) = false := by decide +kernel
    intro x member
    exact Store.names_contains_extended.trans (by rw [contains_fresh, free x member, Bool.or_false])
  have encoded : encodeInverse [[⟨0⟩]] [[⟨1⟩]] middle = .ok () posted := rfl
  have ended : posted.propagation.ending = .failed 0 (.error (.outsideTarget "sum((x0 * x1))" (.point 1.0))) := by
    decide +kernel
  have constant : store.vars.IsConstant ⟨0⟩ 0 := by
    exact_mod_cast isConstant_of_ofInt (n := 0) rfl rfl (by decide +kernel) (by norm_num)
  exact ⟨store, middle, posted, _, _, by simp, reachable, rfl, constant, made, by decide +kernel, encoded,
    Store.propagate_of_failed ended, rfl⟩

end

end StatBounds
