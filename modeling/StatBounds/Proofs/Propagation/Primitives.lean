import StatBounds.Constraint.Reified
import StatBounds.Constraint.Sum
import StatBounds.Proofs.Propagation.Narrowing

/-! # Sums and conjunctions keep their solutions

What a sum or a reified conjunction means for an assignment, and that its propagation keeps every
assignment that it holds for. A test on a real variable is half-open while its closure is not, so only
the closure is ever narrowed to.
-/

namespace StatBounds

open Binary64 (IsNumber value)

variable {σ : Assignment}

/-! ## Sums -/

/-- The terms add up to the total. -/
def Sum.Holds (c : Sum) (σ : Assignment) : Prop :=
  (c.terms.map fun v => (σ v).reading).sum = (σ c.total).reading

theorem Sum.keeps {c : Sum} (holds : c.Holds σ) : Keeps σ c.propagate fun _ => True := by
  unfold propagate
  refine Keeps.require.bind fun _ _ => Keeps.get.bind fun vars admits => ?_
  have parts : Interval.EnclosesAll (c.terms.map vars.bounds) (c.terms.map fun v => (σ v).reading) := by
    rw [Interval.EnclosesAll, List.forall₂_map_left_iff, List.forall₂_map_right_iff, List.forall₂_same]
    exact fun v _ => admits.encloses_bounds v
  have total := Interval.encloses_sum parts
  have others := Interval.encloses_sumsOfOthers parts
  rw [holds] at total others
  rw [List.forall₂_map_right_iff] at others
  refine (keeps_narrow total).discard.bind fun _ _ => Keeps.get.bind fun after admitsAfter => ?_
  refine Keeps.forM fun ⟨term, rest⟩ member => (keeps_narrow ?_).discard
  have other := List.forall₂_zip others.flip member
  have left := (admitsAfter.encloses_bounds c.total).sub other
  rwa [sub_sub_cancel] at left

/-! ## Tests -/

namespace Atom

/-- The test as a condition on extended reals. No number passes a comparison with NaN. -/
def Holds : Atom → EReal → Prop
  | atLeast _ bound, x => IsNumber bound ∧ value bound ≤ x
  | below _ bound, x => IsNumber bound ∧ x < value bound
  | within _ lb ub, x => (IsNumber lb ∧ value lb ≤ x) ∧ IsNumber ub ∧ x < value ub

theorem holds_iff {a : Atom} {x : Float} (number : IsNumber x) : a.holds x = true ↔ a.Holds (value x) := by
  cases a <;>
    simp [holds, Holds, Binary64.le_iff, Binary64.lt_iff, number]

theorem holds_int_iff {a : Atom} {n : Int64} :
    a.holds (Binary64.ofInt n.toInt) = true ↔ a.Holds (Choice.int n).reading := by
  rw [holds_iff (Binary64.isNumber_ofInt _), Choice.value_ofInt]

/-- A real domain that a test is known to hold for encloses no number that fails it. -/
theorem holds_of_entailed {a : Atom} {r : RealDomain} {x : EReal} (encloses : r.interval.Encloses x)
    (entailed : a.entailed r = true) : a.Holds x := by
  cases a <;>
    simp only [Atom.entailed, ge_iff_le, Bool.and_eq_true, decide_eq_true_eq, Binary64.le_iff,
      Binary64.lt_iff] at entailed
  case atLeast => exact ⟨entailed.1, entailed.2.2.trans encloses.lower⟩
  case below => exact ⟨entailed.2.1, lt_of_le_of_lt encloses.upper entailed.2.2⟩
  case within =>
    obtain ⟨low, high⟩ := entailed
    exact ⟨⟨low.1, low.2.2.trans encloses.lower⟩, high.2.1, lt_of_le_of_lt encloses.upper high.2.2⟩

/-- A real domain that a test is known to fail for encloses no number that passes it. -/
theorem not_holds_of_refuted {a : Atom} {r : RealDomain} {x : EReal} (encloses : r.interval.Encloses x)
    (refuted : a.refuted r = true) : ¬ a.Holds x := by
  intro holds
  cases a with
  | atLeast v bound =>
      simp only [Atom.refuted, decide_eq_true_eq, Binary64.lt_iff] at refuted
      exact absurd (holds.2.trans encloses.upper) (not_le.2 refuted.2.2)
  | below v bound =>
      simp only [Atom.refuted, decide_eq_true_eq, ge_iff_le, Binary64.le_iff] at refuted
      exact absurd (lt_of_le_of_lt encloses.lower holds.2) (not_lt.2 refuted.2.2)
  | within v lb ub =>
      obtain ⟨⟨numberLb, low⟩, numberUb, high⟩ := holds
      have meets : r.meets lb ub = true := by
        simp only [RealDomain.meets, encloses.notEmpty, Bool.not_false, Bool.true_and, Bool.and_eq_true,
          decide_eq_true_eq, ge_iff_le, Binary64.lt_iff, Binary64.le_iff]
        exact ⟨⟨encloses.proper.lo, numberUb, lt_of_le_of_lt encloses.lower high⟩,
          numberLb, encloses.proper.hi, low.trans encloses.upper⟩
      simp [Atom.refuted, meets] at refuted

theorem truth_sound {a : Atom} {d : Domain} {c : Choice} (admits : d.Admits c) :
    (a.truth d = .yes → a.Holds c.reading) ∧ (a.truth d = .no → ¬ a.Holds c.reading) := by
  cases d with
  | finite s =>
      cases c with
      | real r => exact admits.elim
      | int n =>
          have member : n.toInt ∈ s.values := admits
          simp only [truth]
          split_ifs with all any
          · exact ⟨fun _ => holds_int_iff.1 (List.all_eq_true.1 all _ member), by simp⟩
          · simp
          · refine ⟨by simp, fun _ holds => any (List.any_eq_true.2 ⟨_, member, holds_int_iff.2 holds⟩)⟩
  | real r =>
      have encloses : r.interval.Encloses c.reading := admits.encloses_hull
      simp only [truth]
      split_ifs with refuted entailed
      · exact ⟨by simp, fun _ => not_holds_of_refuted encloses refuted⟩
      · exact ⟨fun _ => holds_of_entailed encloses entailed, by simp⟩
      · simp

theorem truthIn_sound {a : Atom} {vars : Variables} (admits : vars.Admits σ) :
    (a.truthIn vars = .yes → a.Holds (σ a.var).reading) ∧
      (a.truthIn vars = .no → ¬ a.Holds (σ a.var).reading) := by
  unfold truthIn
  cases found : vars.get? a.var with
  | none => simp
  | some x => exact truth_sound (admits a.var x found)

/-! ## Enforcing and refuting -/

theorem encloses_closure {a : Atom} {r : EReal} (holds : a.Holds r) : a.closure.Encloses r := by
  cases a with
  | atLeast v bound =>
      exact Interval.encloses_ofBounds (fun _ => holds.2) (fun _ => by simp)
  | below v bound =>
      exact Interval.encloses_ofBounds (fun _ => by simp) (fun _ => holds.2.le)
  | within v lb ub =>
      exact Interval.encloses_ofBounds (fun _ => holds.1.2) (fun _ => holds.2.2.le)

theorem keeps_enforce {a : Atom} (holds : a.Holds (σ a.var).reading) :
    Keeps σ a.enforce fun _ => True := by
  unfold enforce
  refine Keeps.fetch.bind fun x _ => ?_
  cases x.domain with
  | finite s =>
      refine (keeps_retain fun n choice => ?_).discard
      rw [holds_int_iff, ← choice]
      exact holds
  | real r => exact (keeps_narrow (encloses_closure holds)).discard

theorem encloses_complementIn {a : Atom} {i complement : Interval} {r : EReal} (encloses : i.Encloses r)
    (fails : ¬ a.Holds r) (side : a.complementIn? i = some complement) : complement.Encloses r := by
  cases a with
  | atLeast v bound =>
      obtain rfl := Option.some.inj side
      refine Interval.encloses_ofBounds (fun _ => by simp) fun number => ?_
      exact (not_le.1 fun above => fails ⟨number, above⟩).le
  | below v bound =>
      obtain rfl := Option.some.inj side
      exact Interval.encloses_ofBounds (fun number => not_lt.1 fun under => fails ⟨number, under⟩)
        (fun _ => by simp)
  | within v lb ub =>
      simp only [complementIn?, ge_iff_le] at side
      split_ifs at side with above under
      · rw [Binary64.le_iff] at above
        obtain rfl := Option.some.inj side
        refine Interval.encloses_ofBounds (fun number => ?_) (fun _ => by simp)
        exact not_lt.1 fun inside => fails ⟨⟨above.1, above.2.2.trans encloses.lower⟩, number, inside⟩
      · rw [Binary64.lt_iff] at under
        obtain rfl := Option.some.inj side
        refine Interval.encloses_ofBounds (fun _ => by simp) (fun number => ?_)
        exact (not_le.1 fun inside => fails ⟨⟨number, inside⟩, under.2.1,
          lt_of_le_of_lt encloses.upper under.2.2⟩).le

theorem keeps_refute {a : Atom} (fails : ¬ a.Holds (σ a.var).reading) :
    Keeps σ a.refute fun _ => True := by
  unfold refute
  refine Keeps.fetch.bind fun x chosen => ?_
  cases domain : x.domain with
  | finite s =>
      refine (keeps_retain fun n choice => ?_).discard
      rw [choice, ← holds_int_iff, Bool.not_eq_true] at fails
      rw [fails, Bool.not_false]
  | real r =>
      rw [domain] at chosen
      dsimp only
      cases side : a.complementIn? r.interval with
      | none => exact Keeps.pure trivial
      | some complement =>
          exact (keeps_narrow (encloses_complementIn chosen.encloses_hull fails side)).discard

end Atom

/-! ## Reified conjunctions -/

/-- The indicator is 1 exactly if all tests hold. -/
def Reified.Holds (c : Reified) (σ : Assignment) : Prop :=
  (σ c.indicator).reading = 1 ↔ ∀ a ∈ c.atoms, a.Holds (σ a.var).reading

def Assignment.Decides (σ : Assignment) (v : Var) : Prop :=
  (σ v).reading = 0 ∨ (σ v).reading = 1

theorem Reified.keeps {c : Reified} (decides : σ.Decides c.indicator) (holds : c.Holds σ) :
    Keeps σ c.propagate fun _ => True := by
  unfold propagate
  refine Keeps.require.bind fun _ _ => Keeps.get.bind fun vars admits => ?_
  have bounds := admits.encloses_bounds c.indicator
  dsimp only
  split_ifs with refuted entailed on off
  · -- A test fails, so the indicator is not 1.
    obtain ⟨a, member, no⟩ := List.any_eq_true.1 refuted
    have fails := (Atom.truthIn_sound admits).2 (by simpa using no)
    have zero := decides.resolve_right fun one => fails (holds.1 one a member)
    refine (keeps_narrow ?_).discard
    rw [zero]
    exact Interval.encloses_zero
  · have all : ∀ a ∈ c.atoms, a.Holds (σ a.var).reading := fun a member =>
      (Atom.truthIn_sound admits).1 (by simpa using List.all_eq_true.1 entailed a member)
    refine (keeps_narrow ?_).discard
    rw [holds.2 all]
    have one := Interval.encloses_point 1.0
    rwa [Binary64.value_one] at one
  · -- The indicator cannot be 0 any more.
    have low := (Binary64.le_iff.1 on).2.2.trans bounds.lower
    have one : (σ c.indicator).reading = 1 := by
      refine decides.resolve_left fun zero => ?_
      rw [zero, Binary64.value_one, EReal.coe_zero] at low
      exact absurd low (by norm_num)
    exact Keeps.forM fun a member => Atom.keeps_enforce (holds.1 one a member)
  · -- The indicator cannot be 1 any more. Of the tests all but one are known to hold.
    have high := bounds.upper.trans (Binary64.le_iff.1 off).2.2
    have notOne : ¬ (σ c.indicator).reading = 1 := fun one => by
      rw [one, Binary64.value_zero, EReal.coe_one] at high
      exact absurd high (by norm_num)
    split
    · next last single =>
        refine Atom.keeps_refute fun lastHolds => notOne (holds.2 fun a member => ?_)
        cases known : a.truthIn vars with
        | yes => exact (Atom.truthIn_sound admits).1 known
        | no => exact absurd (List.any_eq_true.2 ⟨a, member, by simp [known]⟩) refuted
        | unknown =>
            have listed : a ∈ c.atoms.filter fun a => a.truthIn vars == .unknown := by
              simp [member, known]
            rw [single, List.mem_singleton] at listed
            rwa [listed]
    · exact Keeps.pure trivial
  · exact Keeps.pure trivial

end StatBounds
