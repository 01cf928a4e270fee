import StatBounds.Proofs.Propagation.Order

/-! # Narrowing an integer variable is filtering it

An integer variable that is narrowed to an interval keeps the values that are read as numbers in it, and what happens
besides is decided by which values pass. It is enough to look at the least and the greatest value to know whether all
pass. The bounds may be rounded to integers before, since no integer lies between a bound and the rounded one.
-/

namespace StatBounds

open Binary64 (ofInt)

/-! ## Filtering -/

namespace Variables

variable {vars : Variables} {v : Var} {x : Variable} {s : IntSet} {keep : Int → Bool} {passes : Int → Prop}
  {onto : Interval}

/-- An integer variable is left the values that pass a test. Nothing else about the variables changes, but inside a
    batch the old domain is kept. -/
structure Sifted (before : Variables) (v : Var) (s : IntSet) (passes : Int → Prop) (after : Variables) : Prop where
  left : ∃ kept : IntSet, before.Replaced v (.finite kept) after ∧ ∀ n, n ∈ kept.values ↔ n ∈ s.values ∧ passes n
  trail : after.trail = if 0 < before.depth then (v, .finite s) :: before.trail else before.trail
  names : after.names = before.names
  ratio : after.ratio = before.ratio
  depth : after.depth = before.depth

/-- An operation leaves to an integer variable the values that pass a test. It says whether some do not, fails if none
    does, and records the variable as changed if there are both. -/
structure Sifts (vars : Variables) (v : Var) (x : Variable) (s : IntSet) (passes : Int → Prop)
    (operation : NarrowM Bool) : Prop where
  unchanged : (∃ after, operation vars = .ok false after) ↔ ∀ n ∈ s.values, passes n
  shortened : (∃ after, operation vars = .ok true after) ↔ (∃ n ∈ s.values, passes n) ∧ ∃ n ∈ s.values, ¬ passes n
  emptied : (∃ failure after, operation vars = .error failure after) ↔ ∀ n ∈ s.values, ¬ passes n
  leaves : Ensures operation vars
    (fun lost after =>
      if lost then vars.Sifted v s passes after ∧ after.changed = vars.changed.push v else after = vars)
    fun failure after => failure = .error (.emptied x.name) ∧ failure.Infeasible ∧
      vars.Sifted v s passes after ∧ after.changed = vars.changed

theorem Sifted.record {after : Variables} (sifted : vars.Sifted v s passes after) (w : Var) :
    vars.Sifted v s passes (after.record w) where
  left := sifted.left.imp fun _ both => ⟨both.1.record w, both.2⟩
  trail := sifted.trail
  names := sifted.names
  ratio := sifted.ratio
  depth := sifted.depth

theorem sifted_setDomain (reads : ∀ n ∈ s.values, keep n = true ↔ passes n) :
    vars.Sifted v s passes ((vars.save v (.finite s)).setDomain v (.finite (s.filter keep))) where
  left := by
    refine ⟨s.filter keep, replaced_setDomain vars v _ _, fun n => ?_⟩
    rw [IntSet.mem_filter]
    exact and_congr_right (reads n)
  trail := by simp only [setDomain, save]; split_ifs <;> rfl
  names := by simp only [setDomain, save]; split_ifs <;> rfl
  ratio := by simp only [setDomain, save]; split_ifs <;> rfl
  depth := by simp only [setDomain, save]; split_ifs <;> rfl

theorem sifts_retain (found : vars.get? v = some x) (domain : x.domain = .finite s) (some : s.isEmpty = false)
    (reads : ∀ n ∈ s.values, keep n = true ↔ passes n) : vars.Sifts v x s passes (retain v keep) := by
  have unchanged : s.values.all keep = true ↔ ∀ n ∈ s.values, passes n := by
    rw [List.all_eq_true]
    exact forall₂_congr reads
  have emptied : (s.filter keep).isEmpty = true ↔ ∀ n ∈ s.values, ¬ passes n := by
    rw [IntSet.isEmpty, IntSet.filter, List.isEmpty_iff, List.filter_eq_nil_iff]
    exact forall₂_congr fun n member => not_congr (reads n member)
  obtain ⟨m, member⟩ := List.isEmpty_eq_false_iff_exists_mem.1 some
  have sifted : vars.Sifted v s passes _ := sifted_setDomain reads
  have changed := changed_replaced vars v (.finite s) (.finite (s.filter keep))
  have ran : retain v keep vars = _ := retain_eq found domain
  rw [domain] at ran
  by_cases all : s.values.all keep = true
  · rw [if_pos all] at ran
    have pass := unchanged.1 all
    refine ⟨?_, ?_, ?_, by rw [Ensures, ran]; rfl⟩
    · exact iff_of_true ⟨vars, ran⟩ pass
    · refine iff_of_false (by simp [ran]) ?_
      rintro ⟨-, n, isMember, fails⟩
      exact fails (pass n isMember)
    · exact iff_of_false (by simp [ran]) fun fail => fail m member (pass m member)
  · rw [if_neg all] at ran
    have failing : ∃ n ∈ s.values, ¬ passes n := by
      rw [unchanged] at all
      push Not at all
      exact all
    by_cases none : (s.filter keep).isEmpty = true
    · rw [if_pos none] at ran
      have fail := emptied.1 none
      refine ⟨?_, ?_, ?_, by rw [Ensures, ran]; exact ⟨rfl, rfl, sifted, changed⟩⟩
      · exact iff_of_false (by simp [ran]) fun pass => fail m member (pass m member)
      · refine iff_of_false (by simp [ran]) ?_
        rintro ⟨⟨n, isMember, pass⟩, -⟩
        exact fail n isMember pass
      · exact iff_of_true ⟨_, _, ran⟩ fail
    · rw [if_neg none] at ran
      have passing : ∃ n ∈ s.values, passes n := by
        rw [emptied] at none
        push Not at none
        exact none
      refine ⟨?_, ?_, ?_, by rw [Ensures, ran]; exact ⟨sifted.record v, congrArg (·.push v) changed⟩⟩
      · exact iff_of_false (by simp [ran]) fun pass => all (unchanged.2 pass)
      · exact iff_of_true ⟨_, ran⟩ ⟨passing, failing⟩
      · exact iff_of_false (by simp [ran]) fun fail => none (emptied.2 fail)

theorem Sifts.congr {operation operation' : NarrowM Bool} (sifts : vars.Sifts v x s passes operation)
    (same : operation' vars = operation vars) : vars.Sifts v x s passes operation' where
  unchanged := same ▸ sifts.unchanged
  shortened := same ▸ sifts.shortened
  emptied := same ▸ sifts.emptied
  leaves := by
    rw [Ensures, same]
    exact sifts.leaves

/-- Narrowing filters, although it looks at the extremes first. -/
theorem sifts_narrow (proper : onto.Proper) (found : vars.get? v = some x) (domain : x.domain = .finite s)
    (some : s.isEmpty = false) :
    vars.Sifts v x s (fun n => onto.lo ≤ ofInt n ∧ ofInt n ≤ onto.hi) (narrow v onto) := by
  refine (sifts_retain found domain some fun n _ => ?_).congr (narrow_eq_retain proper found domain)
  simp only [ge_iff_le, Bool.and_eq_true, decide_eq_true_eq]

theorem sifts_restrict {allowed : IntSet} (found : vars.get? v = some x) (domain : x.domain = .finite s)
    (some : s.isEmpty = false) : vars.Sifts v x s (· ∈ allowed.values) (restrict v (.finite allowed)) := by
  have same : restrict v (.finite allowed) vars = retain v allowed.contains vars := by
    simp only [restrict, fetch_bind found, domain]
  refine (sifts_retain found domain some fun n _ => ?_).congr same
  rw [IntSet.contains, List.contains_iff_mem]

/-- No integer is cut off by bounds that are rounded to the integers inside. -/
theorem narrow_inward (found : vars.get? v = some x) (domain : x.domain = .finite s) :
    narrow v onto.inward vars = narrow v onto vars := by
  simp only [narrow_eq_finite found domain, Interval.inward, gt_iff_lt, ge_iff_le, Binary64.ofInt_lt_ceiling_iff,
    Binary64.floor_lt_ofInt_iff, Binary64.ceiling_le_ofInt_iff, Binary64.ofInt_le_floor_iff]

/-- Narrowing an integer variable to an interval leaves exactly the values that are read as numbers in it, whether or
    not the bounds are rounded to integers before, and restricting it to a finite domain leaves the common values. -/
theorem narrowing_filters (vars : Variables) (v : Var) (x : Variable) (s : IntSet) (found : vars.get? v = some x)
    (domain : x.domain = .finite s) (some : s.isEmpty = false) :
    (∀ onto : Interval, onto.Proper →
      vars.Sifts v x s (fun n => onto.lo ≤ ofInt n ∧ ofInt n ≤ onto.hi) (narrow v onto) ∧
      narrow v onto.inward vars = narrow v onto vars) ∧
    ∀ allowed : IntSet, vars.Sifts v x s (· ∈ allowed.values) (restrict v (.finite allowed)) :=
  ⟨fun _ proper => ⟨sifts_narrow proper found domain some, narrow_inward found domain⟩,
    fun _ => sifts_restrict found domain some⟩

/-- Inside a batch, an interval around 2 only. -/
theorem narrowing_filters_fractional_bounds :
    let s : IntSet := ⟨[1, 2, 3], by decide⟩
    let vars : Variables := { empty 0.1 with arena := #[⟨"x", .finite s⟩], depth := 1 }
    narrow ⟨0⟩ (Interval.mk 1.5 2.5).inward vars = narrow ⟨0⟩ ⟨1.5, 2.5⟩ vars ∧
      ∃ after, narrow ⟨0⟩ ⟨1.5, 2.5⟩ vars = .ok true after ∧ after.trail = [(⟨0⟩, .finite s)] ∧
        after.changed = #[⟨0⟩] := by
  intro s vars
  obtain ⟨sifts, same⟩ := (narrowing_filters vars ⟨0⟩ ⟨"x", .finite s⟩ s rfl rfl rfl).1 ⟨1.5, 2.5⟩ ⟨by rfl, by rfl⟩
  obtain ⟨after, ran⟩ := sifts.shortened.2
    ⟨⟨2, by decide, by decide +kernel⟩, 1, by decide, by decide +kernel⟩
  have leaves := sifts.leaves
  rw [Ensures, ran] at leaves
  exact ⟨same, after, ran, leaves.1.trail, leaves.2⟩

end Variables

end StatBounds
