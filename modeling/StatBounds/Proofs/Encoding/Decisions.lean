import StatBounds.Proofs.Encoding.Indicators
import StatBounds.Proofs.Propagation.Fixed
import StatBounds.Proofs.Propagation.Frames

/-! # Propagating an encoding

An encoding by indicators posts sums, conjunctions and formulas that are sums, over given variables and the new
indicators. On integer variables its propagation ends with all of them settled, or does not get to the end of its
queue. And if some solution gives the given variables values from their domains, then it does not fail.
-/

namespace StatBounds

open Store (sumOf)

variable {σ : Assignment}

def Constraint.IsCounting : Constraint → Prop
  | formula f => ∃ vs target, f = .ofExpr (sumOf vs) target
  | sum _ | reified _ => True
  | binCount _ | custom _ => False

namespace Constraint

variable {c : Constraint}

theorem IsCounting.isBuiltIn (counting : c.IsCounting) : c.IsBuiltIn := by
  cases c with
  | formula f =>
      obtain ⟨vs, target, rfl⟩ := counting
      exact ⟨_, _, rfl⟩
  | sum _ | reified _ => trivial
  | binCount _ | custom _ => exact counting.elim

theorem IsCounting.failsPlainly (counting : c.IsCounting) : FailsPlainly c.propagate := by
  cases c with
  | formula f => exact .formula f
  | sum c => exact .sum c
  | reified c => exact .reified c
  | binCount _ | custom _ => exact counting.elim

theorem IsCounting.keeps (counting : c.IsCounting) (satisfied : c.Satisfied σ)
    (decides : ∀ r, c = .reified r → σ.Decides r.indicator) : Keeps σ c.propagate fun _ => True := by
  cases c with
  | formula f => exact Formula.keeps satisfied
  | sum c => exact Sum.keeps satisfied
  | reified c => exact Reified.keeps (decides c rfl) satisfied
  | binCount _ | custom _ => exact counting.elim

end Constraint

theorem Expr.occurrencesAll_vars (vs : List Var) : occurrencesAll (vs.map .var) = vs := by
  induction vs with
  | nil => rfl
  | cons v vs ih => rw [List.map_cons, occurrencesAll, ih]; rfl

/-- A sum looks at its terms only. -/
theorem mem_scope_sumOf {vs : List Var} {target : Interval} {v : Var}
    (inScope : v ∈ (Formula.ofExpr (sumOf vs) target).scope) : v ∈ vs := by
  cases vs with
  | nil => simp [Formula.ofExpr, sumOf, Expr.total, Expr.vars, Expr.occurrences] at inScope
  | cons w rest =>
      have occurs : v ∈ Expr.occurrencesAll ((w :: rest).map .var) := List.mem_eraseDups.1 inScope
      rwa [Expr.occurrencesAll_vars] at occurs

namespace Store

variable {store after last : Store} {batches : List Store} {names : List String} {olds : List Var}
  {constraints : List Constraint} {v : Var} {n : Int}

/-- A store is another one with new truth variables, and with constraints that count. They look at given variables and
    at new ones, which the indicators are. -/
structure Encodes (store after : Store) (names : List String) (olds : List Var) (constraints : List Constraint) :
    Prop where
  extended : store.Extends after names constraints
  counting : ∀ c ∈ constraints, c.IsCounting
  scope : ∀ c ∈ constraints, ∀ v ∈ c.scope, v ∈ olds ∨ store.vars.size ≤ v.index
  indicators : ∀ r, .reified r ∈ constraints → store.vars.size ≤ r.indicator.index

theorem allows_int_iff {m : Int64} : store.Allows v (.int m) ↔ store.vars.CanBe v m.toInt := by
  constructor
  · rintro ⟨x, found, admits⟩
    cases domain : x.domain with
    | real r => exact (domain ▸ admits : (Domain.real r).Admits (.int m)).elim
    | finite s => exact ⟨x, s, found, domain, (domain ▸ admits : (Domain.finite s).Admits (.int m))⟩
  · rintro ⟨x, s, found, domain, member⟩
    exact ⟨x, found, domain ▸ member⟩

theorem exists_allows {count : Nat} (canBe : store.vars.CanBe v count) (small : count < 2 ^ 53) :
    ∃ c, store.Allows v c ∧ c.reading = count := by
  have ⟨word, reading⟩ := Choice.reading_ofInt (n := count) (by rw [Nat.abs_cast]; norm_cast; omega)
  exact ⟨.int (Int64.ofInt count), allows_int_iff.2 (word.symm ▸ canBe), reading.trans (Int.cast_natCast _)⟩

theorem allows_of_fixedTo (fixed : store.vars.FixedTo σ v) : store.Allows v (σ v) := by
  obtain ⟨n, choice, fixes⟩ := fixed
  rw [choice]
  exact allows_int_iff.2 fixes.canBe

theorem Allows.eq_of_fixedTo {c : Choice} (allows : store.Allows v c) (fixed : store.vars.FixedTo σ v) : c = σ v := by
  obtain ⟨n, choice, fixes⟩ := fixed
  cases c with
  | real r =>
      obtain ⟨x, found, admits⟩ := allows
      obtain ⟨y, s, found', domain, -⟩ := fixes
      obtain rfl := Option.some.inj (found.symm.trans found')
      exact (domain ▸ admits : (Domain.finite s).Admits (.real r)).elim
  | int m =>
      have same := (allows_int_iff.1 allows).eq_of_fixes fixes
      rw [choice, Int64.toInt_inj.1 same]

/-- A variable that was there before has the same domain. -/
theorem Extends.canBe_iff (extended : store.Extends after names constraints) (old : v.index < store.vars.size) :
    after.vars.CanBe v n ↔ store.vars.CanBe v n := by
  rw [Variables.CanBe, extended.get?_old old]
  exact Iff.rfl

theorem Extends.hasValues_iff (extended : store.Extends after names constraints) (old : v.index < store.vars.size) :
    after.vars.HasValues v ↔ store.vars.HasValues v := by
  rw [Variables.HasValues, extended.get?_old old]
  exact Iff.rfl

theorem Extends.truth_values (extended : store.Extends after names constraints) {k : Nat} (new : k < names.length) :
    after.vars.HasValues ⟨store.vars.size + k⟩ ∧ ∀ n, after.vars.CanBe ⟨store.vars.size + k⟩ n → n = 0 ∨ n = 1 := by
  have found := extended.get?_new new
  have values : (IntSet.range 0 1).values = [0, 1] := by decide
  have some : (Domain.finite (.range 0 1)).isEmpty = false := by decide
  refine ⟨⟨_, found, rfl, some⟩, fun n ⟨x, s, found', domain, member⟩ => ?_⟩
  obtain rfl := Option.some.inj (found.symm.trans found')
  obtain rfl := Domain.finite.inj domain
  simpa [values] using member

theorem Extends.fixedTo (extended : store.Extends after names constraints) (old : v.index < store.vars.size)
    (fixed : store.vars.FixedTo σ v) : after.vars.FixedTo σ v := by
  rw [Variables.FixedTo] at fixed ⊢
  simp only [Variables.Fixes, extended.get?_old old] at fixed ⊢
  exact fixed

theorem index_lt_of_hasValues (has : store.vars.HasValues v) : v.index < store.vars.size := by
  obtain ⟨x, found, -⟩ := has
  exact (Array.getElem?_eq_some_iff.1 found).1

/-- A propagation of integers that succeeds without using up its steps leaves all constraints settled, and some values
    of each variable. -/
theorem Consistent.settled_of_propagate (consistent : store.Consistent) (builtIn : ∀ c ∈ store.constraints, c.IsBuiltIn)
    (finite : store.vars.FiniteOn store.Concerns) (ran : propagate store = .ok () last)
    (uncapped : store.propagation.ending ≠ .capped) :
    (∀ c ∈ store.constraints, c.Settled last.vars ∧ last.vars.FiniteOn (· ∈ c.scope)) ∧
      store.vars.Leaves last.vars := by
  obtain ⟨ended, rfl⟩ := Store.settled_of_propagate ran uncapped
  obtain ⟨settling, -⟩ := consistent.settling finite (fun c member v inScope => ⟨c, member, inScope⟩) builtIn ended
  refine ⟨fun c member => ?_, leaves_propagation builtIn ended⟩
  obtain ⟨p, found⟩ := Array.getElem?_of_mem member
  exact ⟨settling.off p c found (by simp), fun v x inScope => settling.finite v x ⟨c, member, inScope⟩⟩

namespace Encodes

theorem mem_constraints_iff (encodes : store.Encodes after names olds constraints) (none : store.constraints = #[])
    {c : Constraint} : c ∈ after.constraints ↔ c ∈ constraints := by
  rw [← Array.mem_toList_iff, encodes.extended.constraints, none]
  exact Iff.rfl

theorem isBuiltIn (encodes : store.Encodes after names olds constraints) (none : store.constraints = #[]) :
    ∀ c ∈ after.constraints, c.IsBuiltIn :=
  fun c member => (encodes.counting c ((encodes.mem_constraints_iff none).1 member)).isBuiltIn

theorem hasValues (encodes : store.Encodes after names olds constraints) (none : store.constraints = #[])
    (consistent : after.Consistent) (has : ∀ v ∈ olds, store.vars.HasValues v) (concerns : after.Concerns v) :
    after.vars.HasValues v := by
  obtain ⟨c, member, inScope⟩ := concerns
  have known : v.index < after.vars.size := of_decide_eq_true (consistent.scope c member v inScope)
  rcases encodes.scope c ((encodes.mem_constraints_iff none).1 member) v inScope with old | new
  · exact (encodes.extended.hasValues_iff (index_lt_of_hasValues (has v old))).2 (has v old)
  · obtain ⟨k, position⟩ := Nat.exists_eq_add_of_le new
    obtain rfl : v = ⟨store.vars.size + k⟩ := congrArg Var.mk position
    rw [encodes.extended.size] at known
    exact (encodes.extended.truth_values (by simpa using known)).1

/-- A propagation that succeeds without using up its steps leaves all constraints settled, and some values of each
    variable. -/
theorem settled (encodes : store.Encodes after names olds constraints) (none : store.constraints = #[])
    (reachable : Reachable batches after) (has : ∀ v ∈ olds, store.vars.HasValues v)
    (ran : propagate after = .ok () last) (uncapped : after.propagation.ending ≠ .capped) :
    (∀ c ∈ constraints, c.Settled last.vars ∧ last.vars.FiniteOn (· ∈ c.scope)) ∧ after.vars.Leaves last.vars := by
  have consistent := reachable.invariant.1
  have finite : after.vars.FiniteOn after.Concerns := by
    intro v x concerns found
    obtain ⟨y, found', finite, -⟩ := encodes.hasValues none consistent has concerns
    rwa [Option.some.inj (found.symm.trans found')]
  obtain ⟨settled, leaves⟩ := consistent.settled_of_propagate (encodes.isBuiltIn none) finite ran uncapped
  exact ⟨fun c member => settled c ((encodes.mem_constraints_iff none).2 member), leaves⟩

/-- A settled conjunction of tests of fixed variables has fixed its indicator, which is a new truth variable. -/
theorem fixes_indicator (encodes : store.Encodes after names olds constraints) (none : store.constraints = #[])
    (consistent : after.Consistent) (leaves : after.vars.Leaves last.vars) {c : Reified}
    (member : .reified c ∈ constraints) (settled : (Constraint.reified c).Settled last.vars)
    (tested : ∀ a ∈ c.atoms, last.vars.FixedTo σ a.var) {p : Prop} [Decidable p]
    (tells : (∀ a ∈ c.atoms, a.Holds (σ a.var).reading) ↔ p) :
    last.vars.Fixes c.indicator ((if p then 1 else 0 : Nat) : Int) := by
  have inScope : c.indicator ∈ (Constraint.reified c).scope := List.mem_append_right _ (List.mem_singleton_self _)
  have known : c.indicator.index < after.vars.size :=
    of_decide_eq_true (consistent.scope _ ((encodes.mem_constraints_iff none).2 member) _ inScope)
  obtain ⟨k, position⟩ := Nat.exists_eq_add_of_le (encodes.indicators c member)
  have truth := encodes.extended.truth_values (k := k) (by rw [encodes.extended.size] at known; omega)
  rw [show (⟨store.vars.size + k⟩ : Var) = c.indicator from congrArg Var.mk position.symm] at truth
  obtain ⟨has, older⟩ := leaves c.indicator truth.1
  obtain ⟨yes, no⟩ := Reified.fixes_indicator settled tested has fun n canBe => truth.2 n (older n canBe)
  rw [tells] at yes no
  split_ifs with holds
  · exact yes holds
  · exact no holds

section

variable (encodes : store.Encodes after names olds constraints) (none : store.constraints = #[])
  (consistent : after.Consistent) (solves : store.Solves after σ)

include encodes none consistent solves

theorem keeps : ∀ c ∈ after.constraints, Keeps σ c.propagate fun _ => True := by
  intro c member
  obtain ⟨truth, satisfied⟩ := encodes.extended.solves_iff.1 solves
  have listed := (encodes.mem_constraints_iff none).1 member
  refine (encodes.counting c listed).keeps (satisfied c listed) fun r same => ?_
  subst same
  have known : r.indicator.index < after.vars.size :=
    of_decide_eq_true (consistent.scope _ member _ (List.mem_append_right _ (List.mem_singleton_self _)))
  obtain ⟨k, position⟩ := Nat.exists_eq_add_of_le (encodes.indicators r listed)
  have new : (⟨store.vars.size + k⟩ : Var) = r.indicator := congrArg Var.mk position.symm
  have truth := truth k (by rw [encodes.extended.size] at known; omega)
  rw [new] at truth
  rcases truth with zero | one
  · exact .inl (by rw [zero, Choice.reading_zero])
  · exact .inr (by rw [one, Choice.reading_one])

variable (allows : ∀ v ∈ olds, store.Allows v (σ v))

include allows

omit consistent in
/-- A solution is admitted at first, by all variables that the constraints look at. -/
theorem admits : after.vars.AdmitsOn (fun v => after.Concerns v ∨ v ∈ olds) σ := by
  have old {v : Var} {x : Variable} (member : v ∈ olds) (found : after.vars.get? v = some x) :
    x.domain.Admits (σ v) := by
    obtain ⟨y, there, admits⟩ := allows v member
    rw [encodes.extended.get?_old (Array.getElem?_eq_some_iff.1 there).1] at found
    rwa [Option.some.inj (found.symm.trans there)]
  rintro v x (⟨c, member, inScope⟩ | given) found
  · rcases encodes.scope c ((encodes.mem_constraints_iff none).1 member) v inScope with given | behind
    · exact old given found
    · exact solves.admits v x (decide_eq_false (not_lt.2 behind)) found
  · exact old given found

/-- A propagation does not fail if the given variables can have the values of a solution. -/
theorem exists_propagate : ∃ last, propagate after = .ok () last :=
  consistent.exists_propagate (encodes.isBuiltIn none) (encodes.keeps none consistent solves)
    (fun c member => (encodes.counting c ((encodes.mem_constraints_iff none).1 member)).failsPlainly)
    fun v x concerns found => encodes.admits none solves allows v x (.inl concerns) found

omit consistent in
theorem allows_of_propagate (reachable : Reachable batches after) (has : ∀ v ∈ olds, store.vars.HasValues v)
    (ran : propagate after = .ok () last) (uncapped : after.propagation.ending ≠ .capped) :
    ∀ v ∈ olds, last.Allows v (σ v) := by
  intro v member
  have kept := (propagated_keepsOn (encodes.isBuiltIn none) (encodes.keeps none reachable.invariant.1 solves)
    (fun _ => .inl) (encodes.admits none solves allows) 1).1
  obtain ⟨-, leaves⟩ := encodes.settled none reachable has ran uncapped
  obtain ⟨-, rfl⟩ := settled_of_propagate ran uncapped
  obtain ⟨⟨x, found, -⟩, -⟩ :=
    leaves v ((encodes.extended.hasValues_iff (index_lt_of_hasValues (has v member))).2 (has v member))
  exact ⟨x, found, kept v x (.inr member) found⟩

end

end Encodes

end Store

end StatBounds
