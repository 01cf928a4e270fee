import StatBounds.Proofs.Binary64.Integers
import StatBounds.Variables.Atoms

/-! # Single steps

What reading and narrowing come to, case by case. A variable that is not there is a fault, before anything changes.
-/

namespace StatBounds

/-! ## Tests without memory -/

namespace IntSet

variable {keep : Int → Bool}

theorem askedUntilRefusal_eq_none (asked values : List Int) :
    askedUntilRefusal (fun _ => keep) asked values = none ↔ values.all keep = true := by
  induction values generalizing asked with
  | nil => simp [askedUntilRefusal]
  | cons n rest ih =>
      rw [askedUntilRefusal, List.all_cons]
      cases passes : keep n with
      | true => simpa using ih (n :: asked)
      | false => simp

theorem passing_eq_filter (asked values : List Int) : passing (fun _ => keep) asked values = values.filter keep := by
  induction values generalizing asked with
  | nil => rfl
  | cons n rest ih => rw [passing, List.filter_cons, ih]

theorem sift_eq_filter (asked : List Int) (s : IntSet) : s.sift (fun _ => keep) asked = s.filter keep := by
  simp only [sift, filter, passing_eq_filter]

end IntSet

/-! ## Steps on one variable -/

section

variable {α : Type} {vars : Variables} {v : Var} {x : Variable} {s : IntSet} {r : RealDomain}
  {keep : Int → Bool} {test : List Int → Int → Bool} {onto : Interval}

theorem fetch_eq (found : vars.get? v = some x) : Variables.fetch v vars = .ok x vars := by
  simp only [Variables.fetch, bind, EStateM.bind, get, getThe, MonadStateOf.get, EStateM.get, found]
  rfl

theorem fetch_bind {next : Variable → NarrowM α} (found : vars.get? v = some x) :
    (Variables.fetch v >>= next) vars = next x vars := by
  simp only [bind, EStateM.bind, fetch_eq found]

theorem fetch_missing (missing : vars.get? v = none) :
    Variables.fetch v vars = .error (.fault (.outOfRange v.index vars.size)) vars := by
  simp only [Variables.fetch, bind, EStateM.bind, get, getThe, MonadStateOf.get, EStateM.get, missing]
  rfl

theorem fetch_bind_missing {next : Variable → NarrowM α} (missing : vars.get? v = none) :
    (Variables.fetch v >>= next) vars = .error (.fault (.outOfRange v.index vars.size)) vars := by
  simp only [bind, EStateM.bind, fetch_missing missing]

theorem sift_missing (missing : vars.get? v = none) :
    Variables.sift v test vars = .error (.fault (.outOfRange v.index vars.size)) vars :=
  fetch_bind_missing missing

theorem retain_missing (missing : vars.get? v = none) :
    Variables.retain v keep vars = .error (.fault (.outOfRange v.index vars.size)) vars :=
  sift_missing missing

theorem narrow_missing (missing : vars.get? v = none) :
    Variables.narrow v onto vars = .error (.fault (.outOfRange v.index vars.size)) vars :=
  fetch_bind_missing missing

theorem sift_real (found : vars.get? v = some x) (domain : x.domain = .real r) :
    Variables.sift v test vars = .error (.error (.realFiltered x.name)) vars := by
  simp only [Variables.sift, fetch_bind found, domain]
  rfl

theorem retain_real (found : vars.get? v = some x) (domain : x.domain = .real r) :
    Variables.retain v keep vars = .error (.error (.realFiltered x.name)) vars :=
  sift_real found domain

/-- A filter that refuses no value changes nothing. One that refuses a value leaves what passes when the values are
    asked about once more, and is recorded unless none passes. -/
theorem sift_cases (test : List Int → Int → Bool) (found : vars.get? v = some x) (domain : x.domain = .finite s) :
    IntSet.askedUntilRefusal test [] s.values = none ∧ Variables.sift v test vars = .ok false vars ∨
    ∃ asked, IntSet.askedUntilRefusal test [] s.values = some asked ∧
      Variables.sift v test vars =
        if (s.sift test asked).isEmpty then
          .error (.error (.emptied x.name)) ((vars.save v x.domain).setDomain v (.finite (s.sift test asked)))
        else .ok true (((vars.save v x.domain).setDomain v (.finite (s.sift test asked))).record v) := by
  cases refused : IntSet.askedUntilRefusal test [] s.values with
  | none =>
      refine .inl ⟨rfl, ?_⟩
      simp only [Variables.sift, fetch_bind found, domain, refused]
      rfl
  | some asked =>
      refine .inr ⟨asked, rfl, ?_⟩
      simp only [Variables.sift, fetch_bind found, domain, refused]
      split_ifs <;> rfl

/-- A filter that every value passes changes nothing, one that some values pass is recorded, and one that
    none passes leaves the domain empty. -/
theorem retain_eq (found : vars.get? v = some x) (domain : x.domain = .finite s) :
    Variables.retain v keep vars =
      if s.values.all keep then .ok false vars
      else if (s.filter keep).isEmpty then
        .error (.error (.emptied x.name)) ((vars.save v x.domain).setDomain v (.finite (s.filter keep)))
      else .ok true (((vars.save v x.domain).setDomain v (.finite (s.filter keep))).record v) := by
  rcases sift_cases (fun _ => keep) found domain with ⟨passed, same⟩ | ⟨asked, refused, same⟩
  · rw [Variables.retain, same, if_pos ((IntSet.askedUntilRefusal_eq_none _ _).1 passed)]
  · have fails : ¬ s.values.all keep = true := by
      rw [← IntSet.askedUntilRefusal_eq_none [], refused]
      simp
    rw [Variables.retain, same, if_neg fails, IntSet.sift_eq_filter]

/-- The values of a finite domain are filtered if the least or the greatest one lies outside. No integer is cut off by
    rounding the bounds to the integers inside. -/
theorem narrow_eq_finite (found : vars.get? v = some x) (domain : x.domain = .finite s) :
    Variables.narrow v onto vars =
      if ((s.min?.any fun n => decide (Binary64.ofInt n < onto.lo)) ||
          (s.max?.any fun n => decide (Binary64.ofInt n > onto.hi))) then
        Variables.retain v
          (fun n => decide (Binary64.ofInt n ≥ onto.lo) && decide (Binary64.ofInt n ≤ onto.hi)) vars
      else .ok false vars := by
  simp only [Variables.narrow, fetch_bind found, domain, Interval.inward, gt_iff_lt, ge_iff_le,
    Binary64.ofInt_lt_ceiling_iff, Binary64.floor_lt_ofInt_iff, Binary64.ceiling_le_ofInt_iff,
    Binary64.ofInt_le_floor_iff]
  split_ifs <;> rfl

/-- A real domain is replaced by its intersection if that is not empty, and has other bounds. -/
theorem narrow_eq_real (found : vars.get? v = some x) (domain : x.domain = .real r) :
    Variables.narrow v onto vars =
      let new := r.interval.intersect onto
      let replaced := (vars.save v x.domain).setDomain v (.real { r with interval := new })
      if new.sameBounds r.interval then .ok false vars
      else if new.isEmpty then .error (.error (.emptied x.name)) vars
      else .ok true
        (if Variables.significant replaced.ratio r.precision r.interval new then replaced.record v
          else replaced) := by
  simp only [Variables.narrow, fetch_bind found, domain]
  split
  · rfl
  · split <;> rfl

end

end StatBounds
