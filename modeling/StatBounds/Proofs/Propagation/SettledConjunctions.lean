import StatBounds.Proofs.Propagation.Fixed

/-! # Conjunctions with nothing left to do

The values that are left to integer variables tell whether a conjunction of tests has nothing left to do: its indicator
is fixed as soon as the tests decide it, and an indicator that is fixed to 0 has refuted the last open test.
-/

namespace StatBounds

open Binary64 (value)

variable {vars : Variables} {v : Var} {a : Atom} {c : Reified}

/-! ## Tests of integer variables -/

theorem Variables.HasValues.exists_finite (has : vars.HasValues v) : ∃ x s, vars.get? v = some x ∧
    x.domain = .finite s ∧ (Domain.finite s).isEmpty = false := by
  obtain ⟨x, found, finite, some⟩ := has
  cases domain : x.domain with
  | real r => simp [domain, Domain.isFinite] at finite
  | finite s => exact ⟨x, s, found, domain, domain ▸ some⟩

theorem Variables.HasValues.contains (has : vars.HasValues v) : vars.contains v = true := by
  obtain ⟨x, found, -⟩ := has
  exact decide_eq_true (Array.getElem?_eq_some_iff.1 found).1

theorem Variables.canBe_iff {x : Variable} {s : IntSet} (found : vars.get? v = some x) (domain : x.domain = .finite s)
    {n : Int} : vars.CanBe v n ↔ n ∈ s.values := by
  constructor
  · rintro ⟨y, t, found', domain', member⟩
    obtain rfl := Option.some.inj (found.symm.trans found')
    rwa [Domain.finite.inj (domain.symm.trans domain')]
  · exact fun member => ⟨x, s, found, domain, member⟩

namespace Atom

variable (has : vars.HasValues a.var)

include has

/-- A test is known to hold if all values that are left pass it. -/
theorem truthIn_eq_yes_iff : a.truthIn vars = .yes ↔ ∀ n, vars.CanBe a.var n → a.Holds (value (Binary64.ofInt n)) := by
  obtain ⟨x, s, found, domain, -⟩ := has.exists_finite
  have truth : a.truthIn vars = a.truth (.finite s) := by simp only [truthIn, found, domain]
  simp only [truth, truth_finite_eq_yes, Variables.canBe_iff found domain, holds_iff (Binary64.isNumber_ofInt _)]

/-- A test is known to fail if no value that is left passes it. -/
theorem truthIn_eq_no_iff : a.truthIn vars = .no ↔ ∀ n, vars.CanBe a.var n → ¬ a.Holds (value (Binary64.ofInt n)) := by
  obtain ⟨x, s, found, domain, some⟩ := has.exists_finite
  have truth : a.truthIn vars = a.truth (.finite s) := by simp only [truthIn, found, domain]
  simp only [truth, truth_finite_eq_no, some, true_and, Variables.canBe_iff found domain, Bool.not_eq_true',
    ← holds_iff (Binary64.isNumber_ofInt _), Bool.not_eq_true]

/-- Enforcing a test changes nothing only if the test is known to hold. -/
theorem yes_of_quiet_enforce (ran : a.enforce vars = .ok ⟨⟩ vars) : a.truthIn vars = .yes := by
  obtain ⟨x, s, found, domain, -⟩ := has.exists_finite
  have passes := a.narrows_enforce.of_quiet found (domain ▸ trivial) ran
  rw [domain] at passes
  simp only [truthIn, found, domain, truth_finite_eq_yes]
  exact passes

/-- Refuting a test changes nothing only if the test is known to fail. -/
theorem no_of_quiet_refute (ran : a.refute vars = .ok ⟨⟩ vars) : a.truthIn vars = .no := by
  obtain ⟨x, s, found, domain, some⟩ := has.exists_finite
  rw [refute_eq_finite found domain] at ran
  have passes := (narrows_retain a.var fun n => !a.holds (Binary64.ofInt n)).discard.of_quiet found
    (domain ▸ trivial) ran
  rw [domain] at passes
  simp only [truthIn, found, domain, truth_finite_eq_no, some, true_and]
  exact passes

end Atom

/-! ## Indicators -/

/-- A variable that has no values but 0 and 1, and has one of them. -/
structure Variables.IsTruth (vars : Variables) (v : Var) : Prop where
  has : vars.HasValues v
  truth : ∀ n, vars.CanBe v n → n = 0 ∨ n = 1

namespace Variables.IsTruth

variable (isTruth : vars.IsTruth v)

include isTruth

theorem fixes_zero_iff : vars.Fixes v 0 ↔ vars.CanBe v 0 ∧ ¬ vars.CanBe v 1 :=
  ⟨fun fixes => ⟨fixes.canBe, fun one => absurd (one.eq_of_fixes fixes) (by decide)⟩, fun ⟨_, notOne⟩ =>
    isTruth.has.fixes fun m canBe => (isTruth.truth m canBe).resolve_right fun same => notOne (same ▸ canBe)⟩

theorem fixes_one_iff : vars.Fixes v 1 ↔ ¬ vars.CanBe v 0 ∧ vars.CanBe v 1 :=
  ⟨fun fixes => ⟨fun zero => absurd (zero.eq_of_fixes fixes) (by decide), fixes.canBe⟩, fun ⟨notZero, _⟩ =>
    isTruth.has.fixes fun m canBe => (isTruth.truth m canBe).resolve_left fun same => notZero (same ▸ canBe)⟩

/-- It is fixed to 0, or it is fixed to 1, or it can be both. -/
theorem cases : vars.Fixes v 0 ∨ vars.Fixes v 1 ∨ vars.CanBe v 0 ∧ vars.CanBe v 1 := by
  rw [isTruth.fixes_zero_iff, isTruth.fixes_one_iff]
  obtain ⟨x, s, found, domain, some⟩ := isTruth.has.exists_finite
  obtain ⟨n, member⟩ := List.isEmpty_eq_false_iff_exists_mem.1 some
  have canBe : vars.CanBe v n := ⟨x, s, found, domain, member⟩
  rcases isTruth.truth n canBe with rfl | rfl <;> tauto

/-- Narrowing it to a truth value changes nothing if it is fixed to that already, and only then. -/
theorem quiet_narrow_iff {m : Int} (truth : m = 0 ∨ m = 1) :
    discard (Variables.narrow v (.point (Binary64.ofInt m))) vars = .ok ⟨⟩ vars ↔ vars.Fixes v m := by
  constructor
  · intro ran
    refine isTruth.has.fixes fun n ⟨x, s, found, domain, member⟩ => ?_
    have within := within_of_quiet (Interval.proper_ofBounds _ _) found domain ran
    exact eq_of_within_point (fun k listed => isTruth.truth k ⟨x, s, found, domain, listed⟩) truth within member
  · rintro ⟨x, s, found, domain, values⟩
    have stays : Variables.narrow v (.point (Binary64.ofInt m)) vars = .ok false vars := by
      rw [narrow_eq_finite found domain, if_neg]
      rw [IntSet.min?, IntSet.max?, values]
      rcases truth with rfl | rfl <;> decide
    change (Variables.narrow v (.point (Binary64.ofInt m)) >>= fun _ => pure PUnit.unit) vars = _
    simp only [Bind.bind, EStateM.bind, stays]
    rfl

end Variables.IsTruth

/-! ## Conjunctions -/

theorem Variables.require_eq {vs : List Var} (exist : ∀ v ∈ vs, vars.contains v = true) :
    Variables.require vs vars = .ok ⟨⟩ vars := by
  have each : Ensures (Variables.require vs) vars (fun _ after => after = vars) fun _ _ => False := by
    refine ensures_forM (fun v member after same => ?_) rfl
    subst same
    have inside : v.index < after.arena.size := of_decide_eq_true (exist v member)
    refine ensures_discard.2 (ensures_fetch (fun _ _ => rfl) fun missing => ?_)
    rw [Variables.get?, Array.getElem?_eq_getElem inside] at missing
    cases missing
  obtain ⟨_, after, ran, rfl⟩ := each.exists_ok
  exact ran

namespace Reified

theorem propagate_eq_respond (exist : ∀ v ∈ c.scope, vars.contains v = true) :
    c.propagate vars = c.respond vars vars := by
  rw [propagate_eq]
  simp only [Bind.bind, EStateM.bind, Variables.require_eq exist]
  rfl

/-- A conjunction over existing variables has nothing left to do if it does not respond to what is known. -/
theorem settled_iff_respond (exist : ∀ v ∈ c.scope, vars.contains v = true) :
    (Constraint.reified c).Settled vars ↔ c.respond vars vars = .ok () vars := by
  rw [Constraint.Settled, ← propagate_eq_respond exist]
  exact Iff.rfl

section

variable (noNo : ∀ a ∈ c.atoms, a.truthIn vars ≠ .no) (member : a ∈ c.atoms) (notYes : a.truthIn vars ≠ .yes)

include noNo member notYes

theorem respond_of_one (one : vars.Fixes c.indicator 1) : c.respond vars = c.atoms.forM Atom.enforce := by
  rw [respond_of_open noNo member notYes, one.bounds, if_pos (by decide)]

/-- An indicator of 0 refutes a test if it is the only open one. -/
theorem respond_of_zero (zero : vars.Fixes c.indicator 0) :
    c.respond vars = match c.atoms.filter fun a => a.truthIn vars == .unknown with
      | [last] => last.refute
      | _ => pure () := by
  have opened := respond_of_open noNo member notYes
  rw [zero.bounds, if_neg (by decide), if_pos (by decide)] at opened
  exact opened

/-- As long as the indicator can be both, nothing is done. -/
theorem respond_of_both (zero : vars.CanBe c.indicator 0) (one : vars.CanBe c.indicator 1) :
    c.respond vars = pure () := by
  have within (n : Int) (canBe : vars.CanBe c.indicator n) :
      (vars.bounds c.indicator).Encloses (value (Binary64.ofInt n)) := by
    obtain ⟨x, s, found, domain, member⟩ := canBe
    simp only [Variables.bounds, found, domain]
    exact IntSet.encloses_hull member
  rw [respond_of_open noNo member notYes, if_neg fun low => ?_, if_neg fun high => ?_]
  · have above := (within 1 one).upper.trans (Binary64.le_iff.1 high).2.2
    have less : Binary64.ofInt 1 ≤ 0.0 :=
      Binary64.le_iff.2 ⟨Binary64.isNumber_ofInt 1, Binary64.isNumber_zero, above⟩
    exact absurd less (by decide)
  · have below := (Binary64.le_iff.1 low).2.2.trans (within 0 zero).lower
    have less : 1.0 ≤ Binary64.ofInt 0 :=
      Binary64.le_iff.2 ⟨Binary64.isNumber_one, Binary64.isNumber_ofInt 0, below⟩
    exact absurd less (by decide)

end

/-- With an open test the indicator can be 0. If it cannot be 1, then more than one test is open. -/
theorem quiet_iff_of_open (isTruth : vars.IsTruth c.indicator) (has : ∀ a ∈ c.atoms, vars.HasValues a.var)
    (noNo : ∀ a ∈ c.atoms, a.truthIn vars ≠ .no) (member : a ∈ c.atoms) (notYes : a.truthIn vars ≠ .yes) :
    c.respond vars vars = .ok () vars ↔ vars.CanBe c.indicator 0 ∧
      (vars.CanBe c.indicator 1 ∨ (c.atoms.filter fun a => a.truthIn vars == .unknown).length ≠ 1) := by
  rcases isTruth.cases with zero | one | ⟨zero, one⟩
  · have notOne := (isTruth.fixes_zero_iff.1 zero).2
    rw [respond_of_zero noNo member notYes zero]
    simp only [zero.canBe, notOne, true_and, false_or]
    rcases opens : c.atoms.filter (fun a => a.truthIn vars == .unknown) with _ | ⟨last, _ | ⟨_, _⟩⟩
    · rw [opens]
      exact iff_of_true rfl (by simp)
    · have listed : last ∈ c.atoms.filter fun a => a.truthIn vars == .unknown := by simp [opens]
      have inAtoms := (List.mem_filter.1 listed).1
      rw [opens]
      exact iff_of_false (fun ran => noNo last inAtoms (Atom.no_of_quiet_refute (has last inAtoms) ran)) (by simp)
    · rw [opens]
      exact iff_of_true rfl (by simp)
  · have notZero := (isTruth.fixes_one_iff.1 one).1
    rw [respond_of_one noNo member notYes one]
    refine iff_of_false (fun ran => notYes ?_) fun both => notZero both.1
    have each : ∀ a ∈ c.atoms, Local (fun v => ∃ a ∈ c.atoms, a.var = v) a.enforce :=
      fun a member => .enforce ⟨a, member, rfl⟩
    refine Atom.yes_of_quiet_enforce (has a member) (Local.quiet_forM each ?_ ran a member)
    rintro v x ⟨b, member, rfl⟩ found
    obtain ⟨y, found', finite, -⟩ := has b member
    rwa [Option.some.inj (found.symm.trans found')]
  · rw [respond_of_both noNo member notYes zero one]
    exact iff_of_true rfl ⟨zero, .inl one⟩

/-- What a conjunction over integer variables has achieved when it has nothing left to do. -/
theorem settled_iff (exist : ∀ v ∈ c.scope, vars.contains v = true) (isTruth : vars.IsTruth c.indicator)
    (has : ∀ a ∈ c.atoms, vars.HasValues a.var) :
    (Constraint.reified c).Settled vars ↔
      if c.atoms.any fun a => a.truthIn vars == .no then vars.CanBe c.indicator 0 ∧ ¬ vars.CanBe c.indicator 1
      else if c.atoms.all fun a => a.truthIn vars == .yes then
        ¬ vars.CanBe c.indicator 0 ∧ vars.CanBe c.indicator 1
      else vars.CanBe c.indicator 0 ∧
        (vars.CanBe c.indicator 1 ∨ (c.atoms.filter fun a => a.truthIn vars == .unknown).length ≠ 1) := by
  rw [settled_iff_respond exist]
  split_ifs with no yes
  · obtain ⟨a, member, no⟩ := List.any_eq_true.1 no
    have zero : (0.0 : Float) = Binary64.ofInt 0 := by decide +kernel
    rw [respond_of_no member (by simpa using no), ← isTruth.fixes_zero_iff, zero]
    exact isTruth.quiet_narrow_iff (.inl rfl)
  · have one : (1.0 : Float) = Binary64.ofInt 1 := by decide +kernel
    rw [respond_of_yes fun a member => by simpa using List.all_eq_true.1 yes a member, ← isTruth.fixes_one_iff, one]
    exact isTruth.quiet_narrow_iff (.inr rfl)
  · simp only [List.any_eq_true, beq_iff_eq, not_exists, not_and, List.all_eq_true, not_forall] at no yes
    obtain ⟨a, member, notYes⟩ := yes
    exact quiet_iff_of_open isTruth has no member notYes

end Reified

end StatBounds
