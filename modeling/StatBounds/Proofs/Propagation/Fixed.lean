import StatBounds.Proofs.Interval.Sums
import StatBounds.Proofs.Propagation.SumFormulas

/-! # Constraints on fixed variables

Propagation takes values away, but a propagation that succeeds leaves each integer variable some. Where the variables
of a constraint are fixed already, a constraint that has nothing left to do has fixed the one that depends on them: the
outward rounding of a sum of up to a million small integers is too small to let another integer pass.
-/

namespace StatBounds

open Binary64 (value)
open Store (sumOf)

/-! ## Fixed variables -/

/-- The only member of a set. -/
theorem IntSet.values_eq_singleton {s : IntSet} {n : Int} (some : s.isEmpty = false) (only : ∀ m ∈ s.values, m = n) :
    s.values = [n] := by
  obtain ⟨m, member⟩ := List.isEmpty_eq_false_iff_exists_mem.1 some
  obtain ⟨first, rest, split⟩ := List.exists_cons_of_ne_nil (List.ne_nil_of_mem member)
  have increasing := s.increasing
  rw [split] at increasing only ⊢
  obtain rfl := only first (by simp)
  have none : rest = [] := List.eq_nil_iff_forall_not_mem.2 fun k inRest =>
    absurd ((List.pairwise_cons.1 increasing).1 k inRest) (by rw [only k (by simp [inRest])]; exact lt_irrefl _)
  rw [none]

theorem IntSet.mem_range {lo hi n : Int} : n ∈ (range lo hi).values ↔ lo ≤ n ∧ n ≤ hi := by
  simp only [range, List.mem_map, List.mem_range]
  constructor
  · rintro ⟨k, small, rfl⟩
    omega
  · rintro ⟨above, below⟩
    exact ⟨(n - lo).toNat, by omega, by omega⟩

namespace Variables

/-- An integer variable that has a value left. -/
def HasValues (vars : Variables) (v : Var) : Prop :=
  ∃ x, vars.get? v = some x ∧ x.domain.isFinite = true ∧ x.domain.isEmpty = false

/-- An integer is among the values of a variable. -/
def CanBe (vars : Variables) (v : Var) (n : Int) : Prop :=
  ∃ x s, vars.get? v = some x ∧ x.domain = .finite s ∧ n ∈ s.values

/-- An integer is the only value of a variable. -/
def Fixes (vars : Variables) (v : Var) (n : Int) : Prop :=
  ∃ x s, vars.get? v = some x ∧ x.domain = .finite s ∧ s.values = [n]

variable {before middle after vars : Variables} {v : Var} {n m : Int}

theorem Fixes.canBe (fixes : vars.Fixes v n) : vars.CanBe v n := by
  obtain ⟨x, s, found, domain, values⟩ := fixes
  exact ⟨x, s, found, domain, by simp [values]⟩

theorem CanBe.hasValues (canBe : vars.CanBe v n) : vars.HasValues v := by
  obtain ⟨x, s, found, domain, member⟩ := canBe
  refine ⟨x, found, by rw [domain]; rfl, ?_⟩
  rw [domain]
  exact List.isEmpty_eq_false_iff_exists_mem.2 ⟨n, member⟩

theorem CanBe.eq_of_fixes (canBe : vars.CanBe v m) (fixes : vars.Fixes v n) : m = n := by
  obtain ⟨x, s, found, domain, values⟩ := fixes
  obtain ⟨y, t, found', domain', member⟩ := canBe
  obtain rfl := Option.some.inj (found.symm.trans found')
  obtain rfl := Domain.finite.inj (domain.symm.trans domain')
  simpa [values] using member

theorem canBe_range_iff {x : Variable} {lo hi : Int} (found : vars.get? v = some x)
    (domain : x.domain = .finite (.range lo hi)) : vars.CanBe v n ↔ lo ≤ n ∧ n ≤ hi := by
  rw [← IntSet.mem_range]
  constructor
  · rintro ⟨y, s, found', domain', member⟩
    obtain rfl := Option.some.inj (found.symm.trans found')
    obtain rfl := Domain.finite.inj (domain.symm.trans domain')
    exact member
  · exact fun member => ⟨x, _, found, domain, member⟩

theorem HasValues.fixes (has : vars.HasValues v) (only : ∀ m, vars.CanBe v m → m = n) : vars.Fixes v n := by
  obtain ⟨x, found, finite, some⟩ := has
  cases domain : x.domain with
  | real r => simp [domain, Domain.isFinite] at finite
  | finite s =>
      rw [domain] at some
      exact ⟨x, s, found, domain, IntSet.values_eq_singleton some fun m member => only m ⟨x, s, found, domain, member⟩⟩

theorem Fixes.bounds (fixes : vars.Fixes v n) : vars.bounds v = .point (Binary64.ofInt n) := by
  obtain ⟨x, s, found, domain, values⟩ := fixes
  simp [Variables.bounds, found, domain, Domain.hull, IntSet.hull, IntSet.min?, IntSet.max?, values, Interval.point]

/-- Integer variables that had values still have some of them. -/
def Leaves (before after : Variables) : Prop :=
  ∀ v, before.HasValues v → after.HasValues v ∧ ∀ n, after.CanBe v n → before.CanBe v n

theorem Leaves.refl (vars : Variables) : vars.Leaves vars :=
  fun _ has => ⟨has, fun _ => id⟩

theorem Leaves.trans (first : before.Leaves middle) (second : middle.Leaves after) : before.Leaves after :=
  fun v has => ⟨(second v (first v has).1).1, fun n canBe => (first v has).2 n ((second v (first v has).1).2 n canBe)⟩

theorem Leaves.fixes (leaves : before.Leaves after) (fixes : before.Fixes v n) : after.Fixes v n :=
  have ⟨has, older⟩ := leaves v fixes.canBe.hasValues
  has.fixes fun m canBe => (older m canBe).eq_of_fixes fixes

/-- The domain of one variable is replaced by a part of it that is not empty. -/
theorem Replaced.leaves {d : Domain} {x : Variable} (replaced : before.Replaced v d after)
    (found : before.get? v = some x)
    (part : x.domain.isFinite = true → d.Inside x.domain ∧ (x.domain.isEmpty = false → d.isEmpty = false)) :
    before.Leaves after := by
  intro w has
  by_cases here : w = v
  · subst here
    obtain ⟨y, found', finite, some⟩ := has
    obtain rfl := Option.some.inj (found.symm.trans found')
    obtain ⟨inside, keeps⟩ := part finite
    have there := replaced.here
    rw [found, Option.map_some] at there
    cases d with
    | real r =>
        cases domain : x.domain with
        | finite s => exact (domain ▸ inside : (Domain.real r).Inside (.finite s)).elim
        | real q => simp [domain, Domain.isFinite] at finite
    | finite t =>
        refine ⟨⟨_, there, rfl, keeps some⟩, fun n canBe => ?_⟩
        obtain ⟨y, u, found', domain, member⟩ := canBe
        obtain rfl := Option.some.inj (there.symm.trans found')
        obtain rfl := Domain.finite.inj domain
        cases domain : x.domain with
        | real q => simp [domain, Domain.isFinite] at finite
        | finite s => exact ⟨x, s, found, domain, (domain ▸ inside : (Domain.finite t).Inside (.finite s)) n member⟩
  · simp only [HasValues, CanBe, replaced.elsewhere w here] at has ⊢
    exact ⟨has, fun _ => id⟩

end Variables

/-! ## Operations leave values -/

section

variable {α : Type} {known : Var → Prop} {vars : Variables} {v : Var}

theorem leaves_retain (v : Var) (keep : Int → Bool) (vars : Variables) :
    Ensures (Variables.retain v keep) vars (fun _ after => vars.Leaves after) fun _ _ => True := by
  cases found : vars.get? v with
  | none => exact (ensures_missing found).mono (fun _ _ => False.elim) fun _ _ => id
  | some x =>
      cases domain : x.domain with
      | real r =>
          rw [Ensures, retain_real found domain]
          trivial
      | finite s =>
          have part := (narrows_retain v keep).found vars x found (domain ▸ trivial)
          refine part.mono ?_ fun _ _ _ => trivial
          rintro _ after ⟨d, replaced, greatest⟩
          exact replaced.leaves found fun _ => ⟨greatest.inside, greatest.some⟩

theorem leaves_narrow (v : Var) (onto : Interval) (vars : Variables) :
    Ensures (Variables.narrow v onto) vars (fun _ after => vars.Leaves after) fun _ _ => True := by
  cases found : vars.get? v with
  | none => exact (ensures_missing found).mono (fun _ _ => False.elim) fun _ _ => id
  | some x =>
      cases domain : x.domain with
      | finite s =>
          rw [Ensures, narrow_eq_finite found domain]
          split_ifs
          · exact leaves_retain v _ vars
          · exact .refl vars
      | real r =>
          refine (ensures_narrow_real found domain).mono (fun _ after ended => ?_) fun _ _ _ => trivial
          rcases ended with ⟨-, rfl⟩ | ⟨-, replaced⟩
          · exact .refl _
          · exact replaced.leaves found fun finite => by simp [domain, Domain.isFinite] at finite

theorem Local.leaves {operation : NarrowM α} (isLocal : Local known operation) (vars : Variables) :
    Ensures operation vars (fun _ after => vars.Leaves after) fun _ _ => True := by
  induction isLocal generalizing vars with
  | pure a => exact .refl vars
  | fail _ => trivial
  | bind head tail ihHead ihTail =>
      refine ensures_bind.2 ((ihHead vars).mono (fun a middle first => ?_) fun _ _ _ => trivial)
      exact (ihTail a middle).mono (fun _ _ second => first.trans second) fun _ _ _ => trivial
  | read tail same ih => exact ih vars vars
  | fetch member => exact ensures_fetch (fun _ _ => .refl vars) fun _ => trivial
  | retain member keep => exact leaves_retain _ keep vars
  | narrow member onto => exact leaves_narrow _ onto vars

/-- A propagation that ends with an empty queue leaves values of every integer variable that had some. -/
theorem Store.leaves_propagation {store : Store} (builtIn : ∀ c ∈ store.constraints, c.IsBuiltIn)
    (ended : store.propagation.ending = .settled) : store.vars.Leaves store.propagation.vars := by
  have result := Propagation.run_invariant (motive := store.vars.Leaves) store.watchers store.config.effectiveMaxSteps
    (List.range store.constraints.size) 0 #[] (fun position rest before woken c after leaves invokes => by
      have isBuiltIn := builtIn c (Array.mem_of_getElem? invokes.found)
      have step := (Constraint.local_scope isBuiltIn).leaves before
      rw [Ensures, invokes.ran] at step
      exact leaves.trans step) (show store.vars.Leaves (Propagation.forgetChanges store.vars) from .refl _)
  rw [Store.propagation] at ended
  simp only [ended] at result
  exact result

end

/-! ## Sums -/

variable {vars : Variables} {σ : Assignment} {counts : List ℕ}

def Variables.FixesAll (vars : Variables) (vs : List Var) (counts : List ℕ) : Prop :=
  List.Forall₂ (fun v (n : ℕ) => vars.Fixes v n) vs counts

theorem Variables.fixesAll_map {α : Type} {vs : List Var} {as : List α} {h : α → ℕ} (lengths : vs.length = as.length)
    (each : ∀ (i : ℕ) v a, vs[i]? = some v → as[i]? = some a → vars.Fixes v (h a)) : vars.FixesAll vs (as.map h) := by
  refine List.forall₂_iff_get.2 ⟨by rw [lengths, List.length_map], fun i inside inside' => ?_⟩
  rw [List.length_map] at inside'
  simpa using each i _ _ (List.getElem?_eq_getElem inside) (List.getElem?_eq_getElem inside')

theorem Variables.fixesAll_range {α : Type} {as : List α} {position : ℕ → Var} {h : α → ℕ}
    (each : ∀ i a, as[i]? = some a → vars.Fixes (position i) (h a)) :
    vars.FixesAll ((List.range as.length).map position) (as.map h) := by
  refine fixesAll_map (by simp) fun i v a there found => ?_
  have inside := (List.getElem?_eq_some_iff.1 found).1
  obtain rfl : position i = v := by simpa [List.getElem?_range inside] using there
  exact each i a found

/-- A count as both bounds. -/
private abbrev twice (n : ℕ) : ℤ × ℤ :=
  (n, n)

theorem Variables.FixesAll.near {vs : List Var} (fixes : vars.FixesAll vs counts) (small : counts.sum ≤ 2 ^ 20) :
    Interval.NearAll 31 (vs.map vars.bounds) (counts.map twice) := by
  induction fixes with
  | nil => exact .nil
  | @cons v n vs counts fixed _ ih =>
      rw [List.sum_cons] at small
      have size : |(n : ℤ)| ≤ 2 ^ 53 := by rw [Nat.abs_cast]; norm_cast; omega
      refine .cons ?_ (ih (by omega))
      rw [fixed.bounds]
      exact Interval.near_ofBounds (by norm_num) le_rfl size size

/-- The sum of fixed variables encloses no integer but the sum of their values. -/
theorem Variables.FixesAll.eq_sum {vs : List Var} (fixes : vars.FixesAll vs counts) (few : vs.length ≤ 2 ^ 20)
    (small : counts.sum ≤ 2 ^ 20) {n : Int}
    (encloses : (Interval.sum (vs.map vars.bounds)).Encloses (value (Binary64.ofInt n))) : n = counts.sum := by
  have reaches : ((counts.map twice).map Interval.reach).sum = counts.sum := by
    simp [Function.comp_def, Interval.reach]
  have low : ((counts.map twice).map Prod.fst).sum = counts.sum := by simp [Function.comp_def]
  have high : ((counts.map twice).map Prod.snd).sum = counts.sum := by simp [Function.comp_def]
  have near := Interval.near_sum (by norm_num) (fixes.near small) (by rw [reaches, List.length_map]; omega)
  have fits : Interval.Fits 31 counts.sum (vs.map vars.bounds).length := by
    rw [Interval.Fits, Int.natAbs_natCast, List.length_map]
    omega
  rw [low, high] at near
  obtain ⟨least, most⟩ := near.between (by rw [List.length_map]; omega) fits fits encloses
  omega

theorem Sum.fixes_total {c : Sum} (finite : vars.FiniteOn (· ∈ c.scope)) (settled : (Constraint.sum c).Settled vars)
    (fixes : vars.FixesAll c.terms counts) (few : c.terms.length ≤ 2 ^ 20) (small : counts.sum ≤ 2 ^ 20)
    (has : vars.HasValues c.total) : vars.Fixes c.total counts.sum := by
  refine has.fixes fun n ⟨x, s, found, domain, member⟩ => fixes.eq_sum few small ?_
  exact ((Sum.of_settled finite settled).1 x s found domain).encloses (IntSet.encloses_hull member)

theorem Formula.sum_eq_one {vs : List Var}
    (settled : (Constraint.formula (.ofExpr (sumOf vs) (.point 1.0))).Settled vars) (fixes : vars.FixesAll vs counts)
    (few : vs.length ≤ 2 ^ 20) (small : counts.sum ≤ 2 ^ 20) : counts.sum = 1 := by
  obtain ⟨values, revised⟩ := Formula.of_settled settled
  have meets := Formula.meets_of_revise revised
  have proper := Interval.proper_sum (vs.map vars.bounds)
  have properOne : (Interval.point 1.0).Proper := Interval.proper_ofBounds _ _
  have properMeet := Interval.proper_intersect proper (Interval.point 1.0)
  -- Some number is enclosed by both, and the target encloses only one.
  have common := (Interval.isEmpty_eq_false_iff properMeet).1 meets
  obtain ⟨inSum, inTarget⟩ := (Interval.encloses_intersect_iff proper properOne).1 ⟨properMeet, le_rfl, common⟩
  have one : value ((Interval.sum (vs.map vars.bounds)).intersect (.point 1.0)).lo = value (Binary64.ofInt 1) := by
    rw [Interval.point, Interval.ofBounds_of_isNumber Binary64.isNumber_one Binary64.isNumber_one] at inTarget
    exact le_antisymm inTarget.upper inTarget.lower
  rw [one] at inSum
  have sum := fixes.eq_sum few small inSum
  omega

/-! ## Tests -/

/-- The variable has the value that an assignment gives it, and no other one. -/
def Variables.FixedTo (vars : Variables) (σ : Assignment) (v : Var) : Prop :=
  ∃ n : Int64, σ v = .int n ∧ vars.Fixes v n.toInt

theorem Variables.Leaves.fixedTo {after : Variables} {v : Var} (leaves : vars.Leaves after)
    (fixed : vars.FixedTo σ v) : after.FixedTo σ v :=
  fixed.imp fun _ both => ⟨both.1, leaves.fixes both.2⟩

theorem Atom.truthIn_of_fixedTo {a : Atom} (fixed : vars.FixedTo σ a.var) :
    (a.Holds (σ a.var).reading → a.truthIn vars = .yes) ∧ (¬ a.Holds (σ a.var).reading → a.truthIn vars = .no) := by
  obtain ⟨n, choice, x, s, found, domain, values⟩ := fixed
  have truth : a.truthIn vars = a.truth (.finite s) := by simp only [truthIn, found, domain]
  rw [choice, ← holds_int_iff, truth, truth_finite_eq_yes, truth_finite_eq_no]
  simp [values, Domain.isEmpty, IntSet.isEmpty]

theorem eq_of_within_point {s : IntSet} {n m : Int} (boolean : ∀ k ∈ s.values, k = 0 ∨ k = 1) (truth : m = 0 ∨ m = 1)
    (within : s.hull.Within (.point (Binary64.ofInt m))) (member : n ∈ s.values) : n = m := by
  have encloses := within.encloses (IntSet.encloses_hull member)
  have number := Binary64.isNumber_ofInt m
  rw [Interval.point, Interval.ofBounds_of_isNumber number number] at encloses
  have same : value (Binary64.ofInt n) = value (Binary64.ofInt m) := le_antisymm encloses.upper encloses.lower
  have small (k : Int) (truth : k = 0 ∨ k = 1) : |k| ≤ 2 ^ 53 := by
    rcases truth with rfl | rfl <;> norm_num
  rw [Binary64.value_ofInt_exact (small n (boolean n member)), Binary64.value_ofInt_exact (small m truth)] at same
  exact_mod_cast same

theorem Reified.fixes_indicator {c : Reified} (settled : (Constraint.reified c).Settled vars)
    (fixed : ∀ a ∈ c.atoms, vars.FixedTo σ a.var) (has : vars.HasValues c.indicator)
    (boolean : ∀ n, vars.CanBe c.indicator n → n = 0 ∨ n = 1) :
    ((∀ a ∈ c.atoms, a.Holds (σ a.var).reading) → vars.Fixes c.indicator 1) ∧
      ((¬ ∀ a ∈ c.atoms, a.Holds (σ a.var).reading) → vars.Fixes c.indicator 0) := by
  have ran := Reified.of_settled settled
  have decided {m : Int} (truth : m = 0 ∨ m = 1)
      (narrows : discard (Variables.narrow c.indicator (.point (Binary64.ofInt m))) vars = .ok () vars) :
      vars.Fixes c.indicator m := by
    refine has.fixes fun n ⟨x, s, found, domain, member⟩ => ?_
    have within := within_of_quiet (Interval.proper_ofBounds _ _) found domain narrows
    exact eq_of_within_point (fun k listed => boolean k ⟨x, s, found, domain, listed⟩) truth within member
  constructor
  · intro all
    rw [respond_of_yes fun a member => (Atom.truthIn_of_fixedTo (fixed a member)).1 (all a member)] at ran
    exact decided (.inr rfl) ran
  · intro notAll
    simp only [not_forall] at notAll
    obtain ⟨a, member, fails⟩ := notAll
    rw [respond_of_no member ((Atom.truthIn_of_fixedTo (fixed a member)).2 fails)] at ran
    exact decided (.inl rfl) ran

end StatBounds
