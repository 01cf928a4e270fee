import StatBounds.Proofs.Propagation.DomainConsistency

/-! # Sums leave no value that the others cannot add up to

A sum of different integer variables is bounds consistent once it has nothing left to do: each value that is left, the
extremes among them, belongs to a solution between the extremes of the other variables. Each addition is rounded outward
by one step at most. So a grid that is finer than the number of the variables tells apart what is enclosed from the next
integers, as long as the sum of all magnitudes is a small enough multiple of the grid.
-/

namespace StatBounds

open Binary64 (value)
open StatBounds.Interval (Fits Near NearAll reach)

/-! ## Extremes -/

namespace Variables

variable {vars : Variables} {v : Var} {n a b : ℤ}

/-- The least value of an integer variable and the greatest one. -/
structure Spans (vars : Variables) (v : Var) (a b : ℤ) : Prop where
  least : vars.CanBe v a
  greatest : vars.CanBe v b
  within : ∀ n, vars.CanBe v n → a ≤ n ∧ n ≤ b

/-- An integer lies between the extremes of a variable. -/
def InHull (vars : Variables) (v : Var) (n : ℤ) : Prop :=
  ∃ a b, vars.Spans v a b ∧ a ≤ n ∧ n ≤ b

/-- The greatest absolute value of an integer variable. -/
def magnitude (vars : Variables) (v : Var) : ℕ :=
  match vars.get? v with
  | some { domain := .finite s, .. } => s.values.toFinset.sup Int.natAbs
  | _ => 0

theorem HasValues.exists_spans (has : vars.HasValues v) : ∃ a b, vars.Spans v a b := by
  obtain ⟨n, x, s, found, domain, member⟩ := has.exists_canBe
  obtain ⟨least, greatest, first, last⟩ := IntSet.exists_extremes member
  refine ⟨least, greatest, ?_, ?_, fun m canBe => ?_⟩
  · exact (canBe_iff found domain).2 (List.mem_of_mem_head? first)
  · exact (canBe_iff found domain).2 (List.mem_of_getLast? last)
  · have listed := (canBe_iff found domain).1 canBe
    exact ⟨IntSet.min?_le first listed, IntSet.le_max? last listed⟩

theorem Spans.le (spans : vars.Spans v a b) : a ≤ b :=
  (spans.within a spans.least).2

theorem Spans.inHull (spans : vars.Spans v a b) (canBe : vars.CanBe v n) : vars.InHull v n :=
  ⟨a, b, spans, spans.within n canBe⟩

/-- The extremes are the bounds. -/
theorem Spans.bounds (spans : vars.Spans v a b) :
    vars.bounds v = .ofBounds (Binary64.ofInt a) (Binary64.ofInt b) := by
  obtain ⟨x, s, found, domain, member⟩ := spans.least
  obtain ⟨least, greatest, first, last⟩ := IntSet.exists_extremes member
  have low := spans.within least ((canBe_iff found domain).2 (List.mem_of_mem_head? first))
  have high := spans.within greatest ((canBe_iff found domain).2 (List.mem_of_getLast? last))
  have below := IntSet.min?_le first member
  have above := IntSet.le_max? last ((canBe_iff found domain).1 spans.greatest)
  obtain rfl : least = a := le_antisymm below low.1
  obtain rfl : greatest = b := le_antisymm high.2 above
  simp [Variables.bounds, found, domain, Domain.hull, IntSet.hull, first, last]

theorem Fixes.spans (fixes : vars.Fixes v n) : vars.Spans v n n :=
  ⟨fixes.canBe, fixes.canBe, fun _ canBe => ⟨(canBe.eq_of_fixes fixes).ge, (canBe.eq_of_fixes fixes).le⟩⟩

theorem magnitude_le_iff {k : ℕ} : vars.magnitude v ≤ k ↔ ∀ n, vars.CanBe v n → n.natAbs ≤ k := by
  unfold magnitude
  split
  · next name s found =>
      rw [Finset.sup_le_iff]
      refine forall_congr' fun n => ?_
      rw [List.mem_toFinset, canBe_iff found rfl]
  · next none =>
      refine iff_of_true (Nat.zero_le k) fun n ⟨x, s, found, domain, _⟩ => ?_
      obtain ⟨name, _⟩ := x
      subst domain
      exact (none name s found).elim

theorem CanBe.natAbs_le (canBe : vars.CanBe v n) : n.natAbs ≤ vars.magnitude v :=
  magnitude_le_iff.1 le_rfl n canBe

theorem Spans.reach_le (spans : vars.Spans v a b) : reach (a, b) ≤ vars.magnitude v :=
  max_le spans.least.natAbs_le spans.greatest.natAbs_le

end Variables

/-- Narrowing a variable that is fixed fails if its value is not enclosed. -/
theorem ensures_narrow_fixed {vars : Variables} {v : Var} {n : ℤ} {onto : Interval} (fixes : vars.Fixes v n)
    (proper : onto.Proper) : Ensures (Variables.narrow v onto) vars
      (fun _ _ => onto.Encloses (value (Binary64.ofInt n))) fun _ _ => True := by
  obtain ⟨x, s, found, domain, values⟩ := fixes
  have emptied := (Variables.sifts_narrow proper found domain (by simp [IntSet.isEmpty, values])).emptied
  rw [Ensures]
  cases ran : Variables.narrow v onto vars with
  | error failure after => trivial
  | ok lost after =>
      simp only [ran, reduceCtorEq, exists_false, false_iff, values, List.forall_mem_singleton, not_not] at emptied
      exact ⟨proper, (Binary64.le_iff.1 emptied.1).2.2, (Binary64.le_iff.1 emptied.2).2.2⟩

/-! ## Numbers with a given sum -/

section

variable {low high : Var → ℤ} {vs : List Var} {v : Var}

/-- Between the sum of the lower bounds and the sum of the upper bounds, every integer is a sum. -/
theorem exists_sum_eq (distinct : vs.Nodup) (proper : ∀ v ∈ vs, low v ≤ high v) {s : ℤ} (least : (vs.map low).sum ≤ s)
    (most : s ≤ (vs.map high).sum) : ∃ x : Var → ℤ, (∀ v ∈ vs, low v ≤ x v ∧ x v ≤ high v) ∧ (vs.map x).sum = s := by
  induction vs generalizing s with
  | nil =>
      simp only [List.map_nil, List.sum_nil] at least most
      exact ⟨fun _ => 0, by simp, by simp [le_antisymm most least]⟩
  | cons v vs ih =>
      obtain ⟨new, distinct⟩ := List.nodup_cons.1 distinct
      have ⟨order, proper⟩ := List.forall_mem_cons.1 proper
      have sums := List.sum_le_sum proper
      simp only [List.map_cons, List.sum_cons] at least most
      -- The first number is as low as the others allow.
      let y := max (low v) (s - (vs.map high).sum)
      obtain ⟨x, between, sum⟩ := ih distinct proper (s := s - y) (by omega) (by omega)
      have elsewhere (w : Var) (member : w ∈ vs) : Function.update x v y w = x w :=
        Function.update_of_ne (fun same : w = v => new (same ▸ member)) y x
      refine ⟨Function.update x v y, List.forall_mem_cons.2 ⟨?_, fun w member => ?_⟩, ?_⟩
      · rw [Function.update_self]
        omega
      · rw [elsewhere w member]
        exact between w member
      · rw [List.map_cons, List.sum_cons, Function.update_self, List.map_congr_left elsewhere, sum, add_sub_cancel]

theorem sum_erase (member : v ∈ vs) (f : Var → ℤ) : ((vs.erase v).map f).sum = (vs.map f).sum - f v := by
  rw [← List.sum_map_erase f member, add_sub_cancel_left]

/-- The same if one of the numbers is given. -/
theorem exists_sum_eq_of_mem (distinct : vs.Nodup) (proper : ∀ v ∈ vs, low v ≤ high v) (member : v ∈ vs) {n s : ℤ}
    (least : (vs.map low).sum - low v ≤ s - n) (most : s - n ≤ (vs.map high).sum - high v) :
    ∃ x : Var → ℤ, x v = n ∧ (∀ w ∈ vs, w ≠ v → low w ≤ x w ∧ x w ≤ high w) ∧ (vs.map x).sum = s := by
  rw [← sum_erase member] at least most
  obtain ⟨x, between, sum⟩ := exists_sum_eq (distinct.erase v) (fun w inRest => proper w (List.mem_of_mem_erase inRest))
    least most
  have elsewhere (w : Var) (other : w ≠ v) : Function.update x v n w = x w := Function.update_of_ne other n x
  refine ⟨Function.update x v n, Function.update_self v n x, fun w listed other => ?_, ?_⟩
  · rw [elsewhere w other]
    exact between w ((List.mem_erase_of_ne other).2 listed)
  · rw [← List.sum_map_erase _ member, Function.update_self,
      List.map_congr_left fun w inRest => elsewhere w (distinct.mem_erase_iff.1 inRest).1, sum, add_sub_cancel]

end

/-! ## Sums of moderate size -/

theorem exists_mem_zip {α β : Type} {R : α → β → Prop} {as : List α} {bs : List β} {b : β}
    (all : List.Forall₂ R as bs) (member : b ∈ bs) : ∃ a, (b, a) ∈ bs.zip as ∧ R a b := by
  induction all with
  | nil => cases member
  | cons head _ ih =>
      rcases List.mem_cons.1 member with rfl | later
      · exact ⟨_, List.mem_cons_self, head⟩
      · obtain ⟨a, listed, related⟩ := ih later
        exact ⟨a, List.mem_cons_of_mem _ listed, related⟩

/-- Some grid is finer than a count, but coarse enough for the numbers on it to be binary64 numbers. -/
theorem exists_grid_width {count size : ℕ} (positive : 0 < size) (some : 0 < count) (small : count * size ≤ 2 ^ 46) :
    ∃ w ≤ 1000, count < 2 ^ w ∧ 2 * size * 2 ^ w + count < 2 ^ 53 := by
  have coarse : 2 ^ (count.log2 + 1) ≤ 2 * count := by
    rw [pow_succ']
    exact Nat.mul_le_mul_left 2 (Nat.log2_self_le some.ne')
  have few : count ≤ 2 ^ 46 := (Nat.le_mul_of_pos_right count positive).trans small
  have bits : count.log2 + 1 ≤ 47 := (Nat.pow_le_pow_iff_right (by decide : 1 < 2)).1 (coarse.trans (by omega))
  have fits : 2 * size * 2 ^ (count.log2 + 1) ≤ 4 * (count * size) :=
    calc 2 * size * 2 ^ (count.log2 + 1) ≤ 2 * size * (2 * count) := Nat.mul_le_mul_left _ coarse
      _ = 4 * (count * size) := by ring
  exact ⟨count.log2 + 1, by omega, Nat.lt_log2_self, by omega⟩

namespace Sum

variable {c : Sum} {vars after : Variables} {v : Var} {n : ℤ} {x low high : Var → ℤ} {w : ℕ}

/-- The sum of the magnitudes of all variables. -/
def magnitude (c : Sum) (vars : Variables) : ℕ :=
  (c.terms.map vars.magnitude).sum + vars.magnitude c.total

/-- Different integer variables that have values. The more of them there are, the smaller their magnitudes have to be. -/
structure Moderate (c : Sum) (vars : Variables) : Prop where
  distinct : (c.total :: c.terms).Nodup
  has : ∀ v ∈ c.scope, vars.HasValues v
  small : (c.terms.length + 1) * c.magnitude vars ≤ 2 ^ 46

/-- Integers between the extremes of the variables for which the sum is right. -/
structure HullSolution (c : Sum) (vars : Variables) (x : Var → ℤ) : Prop where
  inHull : ∀ v ∈ c.scope, vars.InHull v (x v)
  total : (c.terms.map x).sum = x c.total

/-- Every value that is left, the least and the greatest ones too, belongs to a solution between the extremes. -/
structure BoundsConsistent (c : Sum) (vars : Variables) : Prop where
  has : ∀ v ∈ c.scope, vars.HasValues v
  supported : ∀ v ∈ c.scope, ∀ n, vars.CanBe v n → ∃ x, c.HullSolution vars x ∧ x v = n

/-- The values of each variable are bounded by what the extremes of the others add up to. -/
structure Bounded (c : Sum) (vars : Variables) (low high : Var → ℤ) : Prop where
  total : ∀ n, vars.CanBe c.total n → (c.terms.map low).sum ≤ n ∧ n ≤ (c.terms.map high).sum
  term : ∀ v ∈ c.terms, ∀ n, vars.CanBe v n →
    low c.total - ((c.terms.map high).sum - high v) ≤ n ∧ n ≤ high c.total - ((c.terms.map low).sum - low v)

theorem mem_scope_iff : v ∈ c.scope ↔ v = c.total ∨ v ∈ c.terms := by
  rw [scope, List.mem_append, List.mem_singleton, or_comm]

theorem total_mem (c : Sum) : c.total ∈ c.scope :=
  mem_scope_iff.2 (.inl rfl)

theorem term_mem (member : v ∈ c.terms) : v ∈ c.scope :=
  mem_scope_iff.2 (.inr member)

theorem magnitude_le (member : v ∈ c.scope) : vars.magnitude v ≤ c.magnitude vars := by
  rcases mem_scope_iff.1 member with rfl | isTerm
  · exact Nat.le_add_left _ _
  · exact (List.le_sum_of_mem (List.mem_map_of_mem isTerm)).trans (Nat.le_add_right _ _)

section

variable (distinct : (c.total :: c.terms).Nodup)

include distinct

theorem ne_total (member : v ∈ c.terms) : v ≠ c.total := fun same =>
  (List.nodup_cons.1 distinct).1 (same ▸ member)

theorem hullSolution_update (inHull : ∀ v ∈ c.terms, vars.InHull v (x v)) (total : vars.InHull c.total n)
    (sum : (c.terms.map x).sum = n) : c.HullSolution vars (Function.update x c.total n) := by
  have elsewhere (v : Var) (member : v ∈ c.terms) : Function.update x c.total n v = x v :=
    Function.update_of_ne (ne_total distinct member) n x
  refine ⟨fun v member => ?_, ?_⟩
  · rcases mem_scope_iff.1 member with rfl | isTerm
    · rwa [Function.update_self]
    · rw [elsewhere v isTerm]
      exact inHull v isTerm
  · rw [List.map_congr_left elsewhere, Function.update_self, sum]

variable (spans : ∀ v ∈ c.scope, vars.Spans v (low v) (high v))

include spans

/-- A total between the sums of the extremes is a sum of integers between the extremes. -/
theorem supported_total (canBe : vars.CanBe c.total n) (least : (c.terms.map low).sum ≤ n)
    (most : n ≤ (c.terms.map high).sum) : ∃ x, c.HullSolution vars x ∧ x c.total = n := by
  obtain ⟨x, between, sum⟩ := exists_sum_eq (List.nodup_cons.1 distinct).2
    (fun v member => (spans v (term_mem member)).le) least most
  exact ⟨_, hullSolution_update distinct (fun v member => ⟨_, _, spans v (term_mem member), between v member⟩)
    ((spans _ c.total_mem).inHull canBe) sum, Function.update_self _ _ _⟩

theorem supported_term (member : v ∈ c.terms) (canBe : vars.CanBe v n)
    (least : low c.total - ((c.terms.map high).sum - high v) ≤ n)
    (most : n ≤ high c.total - ((c.terms.map low).sum - low v)) : ∃ x, c.HullSolution vars x ∧ x v = n := by
  have proper (u : Var) (member : u ∈ c.terms) : low u ≤ high u := (spans u (term_mem member)).le
  have total := spans _ c.total_mem
  have order := total.le
  have others : (c.terms.map low).sum - low v ≤ (c.terms.map high).sum - high v := by
    rw [← sum_erase member, ← sum_erase member]
    exact List.sum_le_sum fun u inRest => proper u (List.mem_of_mem_erase inRest)
  -- The total is as low as it can be, or as low as the other terms allow.
  let s := max (low c.total) ((c.terms.map low).sum - low v + n)
  obtain ⟨x, here, between, sum⟩ := exists_sum_eq_of_mem (List.nodup_cons.1 distinct).2 proper member (n := n) (s := s)
    (by omega) (by omega)
  refine ⟨_, hullSolution_update distinct (fun u inTerms => ?_) ⟨_, _, total, by omega, by omega⟩ sum, ?_⟩
  · by_cases same : u = v
    · rw [same, here]
      exact (spans v (term_mem member)).inHull canBe
    · exact ⟨_, _, spans u (term_mem inTerms), between u inTerms same⟩
  · rw [Function.update_of_ne (ne_total distinct member), here]

theorem Bounded.boundsConsistent (bounded : c.Bounded vars low high) : c.BoundsConsistent vars := by
  refine ⟨fun v member => (spans v member).least.hasValues, fun v member n canBe => ?_⟩
  rcases mem_scope_iff.1 member with rfl | isTerm
  · obtain ⟨least, most⟩ := bounded.total n canBe
    exact supported_total distinct spans canBe least most
  · obtain ⟨least, most⟩ := bounded.term v isTerm n canBe
    exact supported_term distinct spans isTerm canBe least most

end

/-- If all values are zero, then no grid is needed, however many variables there are. -/
theorem Moderate.boundsConsistent_of_zero (moderate : c.Moderate vars) (zero : c.magnitude vars = 0) :
    c.BoundsConsistent vars := by
  have only {v : Var} {n : ℤ} (member : v ∈ c.scope) (canBe : vars.CanBe v n) : n = 0 := by
    have small := canBe.natAbs_le.trans (magnitude_le member)
    omega
  refine ⟨moderate.has, fun v member n canBe => ⟨fun _ => 0, ⟨fun u inScope => ?_, by simp⟩, (only member canBe).symm⟩⟩
  obtain ⟨m, canBe⟩ := (moderate.has u inScope).exists_canBe
  obtain ⟨a, b, spans⟩ := (moderate.has u inScope).exists_spans
  exact spans.inHull (only inScope canBe ▸ canBe)

/-! ## Enclosures -/

/-- A grid that is finer than the number of the variables, but coarse enough for binary64. -/
structure Width (c : Sum) (vars : Variables) (w : ℕ) : Prop where
  fine : w ≤ 1000
  few : c.terms.length + 1 < 2 ^ w
  fits : 2 * c.magnitude vars * 2 ^ w + (c.terms.length + 1) < 2 ^ 53

theorem Moderate.exists_width (moderate : c.Moderate vars) (positive : 0 < c.magnitude vars) : ∃ w, c.Width vars w :=
  have ⟨w, fine, few, fits⟩ := exists_grid_width positive (Nat.succ_pos _) moderate.small
  ⟨w, fine, few, fits⟩

/-- Numbers that are not greater than all magnitudes together fit the grid. -/
theorem Width.fits_of_le (width : c.Width vars w) {k : ℕ} (small : n.natAbs ≤ 2 * c.magnitude vars)
    (few : k ≤ c.terms.length + 1) : Fits w n k :=
  .of_le width.fits small le_rfl few

section

variable (spans : ∀ v ∈ c.scope, vars.Spans v (low v) (high v))

include spans

theorem sum_reach_le :
    ((c.terms.map fun v => (low v, high v)).map reach).sum ≤ (c.terms.map vars.magnitude).sum := by
  rw [List.map_map]
  exact List.sum_le_sum fun v member => (spans v (term_mem member)).reach_le

theorem natAbs_sum_le : (c.terms.map low).sum.natAbs ≤ (c.terms.map vars.magnitude).sum ∧
    (c.terms.map high).sum.natAbs ≤ (c.terms.map vars.magnitude).sum := by
  have ⟨lows, highs⟩ := Interval.natAbs_sum_le (c.terms.map fun v => (low v, high v))
  rw [List.map_map] at lows highs
  exact ⟨lows.trans (sum_reach_le spans), highs.trans (sum_reach_le spans)⟩

variable (width : c.Width vars w)

include width

theorem Width.near (member : v ∈ c.scope) : (vars.bounds v).Near w (low v) (high v) 0 := by
  have ⟨least, greatest, _⟩ := spans v member
  have size : vars.magnitude v ≤ c.magnitude vars := magnitude_le member
  have scaled : 2 * c.magnitude vars ≤ 2 * c.magnitude vars * 2 ^ w := Nat.le_mul_of_pos_right _ (Nat.two_pow_pos w)
  have fits := width.fits
  have small {n : ℤ} (canBe : vars.CanBe v n) : |n| ≤ 2 ^ 53 := by
    have := canBe.natAbs_le
    rw [Int.abs_eq_natAbs]
    omega
  rw [(spans v member).bounds]
  exact Interval.near_ofBounds width.fine (spans v member).le (small least) (small greatest)

theorem Width.nearAll : NearAll w (c.terms.map vars.bounds) (c.terms.map fun v => (low v, high v)) := by
  rw [NearAll, List.forall₂_map_left_iff, List.forall₂_map_right_iff, List.forall₂_same]
  exact fun v member => width.near spans (term_mem member)

theorem Width.fits_sum :
    ((c.terms.map fun v => (low v, high v)).map reach).sum * 2 ^ w + (c.terms.map vars.bounds).length < 2 ^ 53 := by
  have small : ((c.terms.map fun v => (low v, high v)).map reach).sum ≤ 2 * c.magnitude vars := by
    have terms := sum_reach_le spans
    rw [magnitude]
    omega
  rw [List.length_map]
  exact (Nat.add_le_add (Nat.mul_le_mul_right _ small) (Nat.le_succ _)).trans_lt width.fits

/-- The sum of the terms encloses no integers but those between the sums of the extremes. -/
theorem Width.between_sum (encloses : (Interval.sum (c.terms.map vars.bounds)).Encloses (value (Binary64.ofInt n))) :
    (c.terms.map low).sum ≤ n ∧ n ≤ (c.terms.map high).sum := by
  have ⟨lows, highs⟩ := natAbs_sum_le spans
  have near := Interval.near_sum width.fine (width.nearAll spans) (width.fits_sum spans)
  rw [List.map_map, List.map_map, List.length_map] at near
  have few := width.few
  refine near.between (by omega) (width.fits_of_le ?_ (Nat.le_succ _)) (width.fits_of_le ?_ (Nat.le_succ _)) encloses
  · exact lows.trans (by rw [magnitude]; omega)
  · exact highs.trans (by rw [magnitude]; omega)

theorem Width.between_others (member : v ∈ c.terms) : ∃ others,
    (v, others) ∈ c.terms.zip (Interval.sumsOfOthers (c.terms.map vars.bounds)) ∧
    ∀ n, (vars.bounds c.total - others).Encloses (value (Binary64.ofInt n)) →
      low c.total - ((c.terms.map high).sum - high v) ≤ n ∧ n ≤ high c.total - ((c.terms.map low).sum - low v) := by
  have all := Interval.near_sumsOfOthers width.fine (width.nearAll spans) (width.fits_sum spans)
  rw [List.map_map, List.map_map, List.length_map, List.forall₂_map_right_iff] at all
  obtain ⟨others, listed, near⟩ := exists_mem_zip all member
  have ⟨lows, highs⟩ := natAbs_sum_le spans
  have reaches {u : Var} (inScope : u ∈ c.scope) :
      (low u).natAbs ≤ vars.magnitude u ∧ (high u).natAbs ≤ vars.magnitude u :=
    ⟨(spans u inScope).least.natAbs_le, (spans u inScope).greatest.natAbs_le⟩
  have ⟨lowTerm, highTerm⟩ := reaches (term_mem member)
  have ⟨lowTotal, highTotal⟩ := reaches c.total_mem
  have term : vars.magnitude v ≤ (c.terms.map vars.magnitude).sum := List.le_sum_of_mem (List.mem_map_of_mem member)
  have few : 0 + c.terms.length + 1 ≤ c.terms.length + 1 := by omega
  have fitsLow : Fits w (low c.total - ((c.terms.map high).sum - high v)) (0 + c.terms.length + 1) :=
    width.fits_of_le (by rw [magnitude]; omega) few
  have fitsHigh : Fits w (high c.total - ((c.terms.map low).sum - low v)) (0 + c.terms.length + 1) :=
    width.fits_of_le (by rw [magnitude]; omega) few
  have left := (width.near spans c.total_mem).sub near fitsLow fitsHigh
  exact ⟨others, listed, fun n => left.between (few.trans_lt width.few) fitsLow fitsHigh⟩

theorem Width.bounded (finite : vars.FiniteOn (· ∈ c.scope)) (settled : (Constraint.sum c).Settled vars) :
    c.Bounded vars low high := by
  obtain ⟨total, term⟩ := Sum.of_settled finite settled
  refine ⟨fun n ⟨x, s, found, domain, listed⟩ => ?_, fun v member n ⟨x, s, found, domain, listed⟩ => ?_⟩
  · exact width.between_sum spans ((total x s found domain).encloses (IntSet.encloses_hull listed))
  · obtain ⟨others, zipped, between⟩ := width.between_others spans member
    exact between n ((term _ zipped x s found domain).encloses (IntSet.encloses_hull listed))

end

/-! ## Propagations -/

namespace Moderate

variable (moderate : c.Moderate vars)

include moderate

theorem finiteOn : vars.FiniteOn (· ∈ c.scope) := by
  intro v y member found
  obtain ⟨z, found', finite, -⟩ := moderate.has v member
  obtain rfl := Option.some.inj (found.symm.trans found')
  exact finite

/-- Fewer values are not greater. -/
theorem leaves (leaves : vars.Leaves after) : c.Moderate after where
  distinct := moderate.distinct
  has v member := (leaves v (moderate.has v member)).1
  small := by
    have smaller (v : Var) (member : v ∈ c.scope) : after.magnitude v ≤ vars.magnitude v :=
      Variables.magnitude_le_iff.2 fun n canBe => ((leaves v (moderate.has v member)).2 n canBe).natAbs_le
    have sizes : c.magnitude after ≤ c.magnitude vars :=
      Nat.add_le_add (List.sum_le_sum fun v member => smaller v (term_mem member)) (smaller _ c.total_mem)
    exact (Nat.mul_le_mul_left _ sizes).trans moderate.small

theorem forgetChanges : c.Moderate (Propagation.forgetChanges vars) :=
  ⟨moderate.distinct, moderate.has, moderate.small⟩

theorem boundsConsistent (settled : (Constraint.sum c).Settled vars) : c.BoundsConsistent vars := by
  rcases Nat.eq_zero_or_pos (c.magnitude vars) with zero | positive
  · exact moderate.boundsConsistent_of_zero zero
  · obtain ⟨w, width⟩ := moderate.exists_width positive
    choose! low high spans using fun v member => (moderate.has v member).exists_spans
    exact (width.bounded spans moderate.finiteOn settled).boundsConsistent moderate.distinct spans

variable (fixes : ∀ v ∈ c.scope, vars.Fixes v (x v))

include fixes

/-- An invocation does not get beyond the total if that is fixed to another integer than the sum of the terms. -/
theorem ensures_total :
    Ensures c.propagate vars (fun _ _ => (c.terms.map x).sum = x c.total) fun _ _ => True := by
  have total := ensures_narrow_fixed (fixes _ c.total_mem) (Interval.proper_sum (c.terms.map vars.bounds))
  have spans (v : Var) (member : v ∈ c.scope) := (fixes v member).spans
  rw [propagate, ensures_bind, Ensures, Variables.require_eq fun v member => (moderate.has v member).contains]
  refine ensures_bind.2 (ensures_get.2 (ensures_bind.2 (ensures_discard.2 (total.mono ?_ fun _ _ => id))))
  refine fun _ _ encloses => ensures_of_forall (fun _ _ => ?_) fun _ _ => trivial
  rcases Nat.eq_zero_or_pos (c.magnitude vars) with zero | positive
  · obtain ⟨sum, -⟩ := natAbs_sum_le spans
    have single := (fixes _ c.total_mem).canBe.natAbs_le
    rw [magnitude] at zero
    omega
  · obtain ⟨w, width⟩ := moderate.exists_width positive
    obtain ⟨least, most⟩ := width.between_sum spans encloses
    exact le_antisymm least most

/-- Choices of 64 bits that are the values of fixed variables satisfy the sum if these do. -/
theorem exists_assignment (sum : (c.terms.map x).sum = x c.total) :
    ∃ σ : Assignment, c.Holds σ ∧ vars.AdmitsOn (· ∈ c.scope) σ := by
  have small {v : Var} (member : v ∈ c.scope) : |x v| ≤ 2 ^ 53 := by
    have size := (fixes v member).canBe.natAbs_le.trans (magnitude_le member)
    have fits : c.magnitude vars ≤ (c.terms.length + 1) * c.magnitude vars := Nat.le_mul_of_pos_left _ (Nat.succ_pos _)
    have bound := moderate.small
    rw [Int.abs_eq_natAbs]
    omega
  have reading {v : Var} (member : v ∈ c.scope) := Choice.reading_ofInt (small member)
  refine ⟨fun v => .int (Int64.ofInt (x v)), ?_, fun v y member found => ?_⟩
  · have terms := List.map_congr_left fun v member => (reading (term_mem member)).2
    rw [Holds, terms, (reading c.total_mem).2, ← sum, Int.cast_list_sum, List.map_map]
    rfl
  · obtain ⟨z, s, found', domain, values⟩ := fixes v member
    obtain rfl := Option.some.inj (found.symm.trans found')
    rw [domain]
    change (Int64.ofInt (x v)).toInt ∈ s.values
    rw [(reading member).1, values]
    exact List.mem_singleton_self _

end Moderate

/-- A sum of different integer variables of moderate magnitudes that is the only constraint is bounds consistent after
    a propagation that does not use up its steps: every value that is left, so the least and the greatest one of each
    variable, belongs to integers between the extremes of the other variables for which the sum is right. If all
    variables are fixed, then a propagation succeeds exactly if the sum is right. -/
theorem propagate_boundsConsistent (c : Sum) (batches : List Store) (store : Store)
    (reachable : Reachable batches store) (only : store.constraints = #[.sum c])
    (distinct : (c.total :: c.terms).Nodup) (has : ∀ v ∈ c.scope, store.vars.HasValues v)
    (small : (c.terms.length + 1) * ((c.terms.map store.vars.magnitude).sum + store.vars.magnitude c.total) ≤ 2 ^ 46) :
    (∀ after, Store.propagate store = .ok () after → store.propagation.ending ≠ .capped →
      c.BoundsConsistent after.vars) ∧
    ∀ x : Var → ℤ, (∀ v ∈ c.scope, store.vars.Fixes v (x v)) →
      ((∃ after, Store.propagate store = .ok () after) ↔ (c.terms.map x).sum = x c.total) := by
  have moderate : c.Moderate store.vars := ⟨distinct, has, small⟩
  have consistent := reachable.invariant.1
  have is_only {d : Constraint} (member : d ∈ store.constraints) : d = .sum c := by simpa [only] using member
  have builtIn (d : Constraint) (member : d ∈ store.constraints) : d.IsBuiltIn := by
    rw [is_only member]
    trivial
  refine ⟨fun after ran uncapped => ?_, fun x fixes => ⟨?_, fun sum => ?_⟩⟩
  · obtain ⟨ended, rfl⟩ := Store.settled_of_propagate ran uncapped
    have finite (d : Constraint) (member : d ∈ store.constraints) (v : Var) (inScope : v ∈ d.scope) (y : Variable)
        (found : store.vars.get? v = some y) : y.domain.isFinite = true := by
      rw [is_only member] at inScope
      exact moderate.finiteOn v y inScope found
    have settled := consistent.allSettled finite builtIn ended (.sum c) (by simp [only])
    exact (moderate.leaves (Store.leaves_propagation builtIn ended)).boundsConsistent settled
  · rintro ⟨after, ran⟩
    -- Only the first invocation counts.
    have result : Ensures Store.propagate store (fun _ _ => (c.terms.map x).sum = x c.total) fun _ _ => True :=
      Store.ensures_propagate_of_only (motive := fun _ => (c.terms.map x).sum = x c.total) only reachable.steps_pos
      (moderate.forgetChanges.ensures_total fixes)
      (fun _ holds => ensures_of_forall (fun _ _ => holds) fun _ _ => trivial) fun _ _ => trivial
    rwa [Ensures, ran] at result
  · obtain ⟨σ, holds, admits⟩ := moderate.exists_assignment fixes sum
    refine consistent.exists_propagate builtIn (σ := σ) (fun d member => ?_) (fun d member => ?_) ?_
    · rw [is_only member]
      exact Sum.keeps holds
    · rw [is_only member]
      exact .sum c
    · rintro v y ⟨d, member, inScope⟩
      rw [is_only member] at inScope
      exact admits v y inScope

/-- Two terms of which one is at least 2 are cut to what a total of at most 3 leaves, and fixed variables that do not
    add up are refused. -/
theorem propagate_boundsConsistent_two_terms :
    let c : Sum := { terms := [⟨0⟩, ⟨1⟩], total := ⟨2⟩ }
    (∃ store after : Store, Reachable [] store ∧ store.constraints = #[.sum c] ∧
      Store.propagate store = .ok () after ∧ c.BoundsConsistent after.vars ∧
      (after.vars.get? ⟨0⟩).map Variable.domain = some (.finite (.range 0 1))) ∧
    ∃ store : Store, Reachable [] store ∧ store.constraints = #[.sum c] ∧
      ¬ ∃ after, Store.propagate store = .ok () after := by
  intro c
  have posted (entries : List (String × Int × Int)) (ordered : ∀ e ∈ entries, e.2.1 ≤ e.2.2)
      (names : (entries.map Prod.fst).Nodup)
      (known : Store.postSum c.terms c.total (Store.fresh.ranging entries) =
        .ok () ((Store.fresh.ranging entries).posting (.sum c))) :
      Reachable [] ((Store.fresh.ranging entries).posting (.sum c)) :=
    .succeeded (Store.reachable_ranging Store.reachable_fresh ordered names (by simp [Store.fresh, Variables.empty]))
      (.post _) known
  have each {p : Var → Prop} (first : p ⟨0⟩) (second : p ⟨1⟩) (total : p ⟨2⟩) : ∀ v ∈ c.scope, p v := by
    simpa [c, scope] using ⟨first, second, total⟩
  constructor
  · let store := (Store.fresh.ranging [("x", 0, 3), ("y", 2, 4), ("t", 0, 3)]).posting (.sum c)
    have reachable : Reachable [] store := posted _ (by decide) (by decide) rfl
    have ended : store.propagation.ending = .settled := by decide +kernel
    have ran := Store.propagate_of_settled ended
    have consistent := (propagate_boundsConsistent c [] store reachable rfl (by decide)
      (each ⟨_, rfl, rfl, rfl⟩ ⟨_, rfl, rfl, rfl⟩ ⟨_, rfl, rfl, rfl⟩) (by decide +kernel)).1 _ ran
      (Store.uncapped_of_settled ended)
    exact ⟨store, _, reachable, rfl, ran, consistent, by decide +kernel⟩
  · let store := (Store.fresh.ranging [("x", 1, 1), ("y", 2, 2), ("t", 4, 4)]).posting (.sum c)
    have reachable : Reachable [] store := posted _ (by decide) (by decide) rfl
    have fixed := (propagate_boundsConsistent c [] store reachable rfl (by decide)
      (each ⟨_, rfl, rfl, rfl⟩ ⟨_, rfl, rfl, rfl⟩ ⟨_, rfl, rfl, rfl⟩) (by decide +kernel)).2
      (fun v => [1, 2, 4].getD v.index 0)
      (each ⟨_, _, rfl, rfl, rfl⟩ ⟨_, _, rfl, rfl, rfl⟩ ⟨_, _, rfl, rfl, rfl⟩)
    exact ⟨store, reachable, rfl, fixed.not.2 (by decide)⟩

end Sum

end StatBounds
