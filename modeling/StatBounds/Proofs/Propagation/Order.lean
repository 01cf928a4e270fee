import StatBounds.Proofs.Interval.Order
import StatBounds.Proofs.Propagation.Narrowing
import StatBounds.Proofs.Store.Trail

/-! # Narrowing smaller domains

Variables lie inside others if all of their values are values there. Narrowing finds the greatest part of a
domain that passes, so a narrowing that succeeds on smaller domains does not empty the larger ones, and what it
leaves of the smaller ones lies inside what it leaves of the larger ones.
-/

namespace StatBounds

open Binary64 (IsNumber value larger smaller)

/-! ## Domains -/

theorem IntSet.proper_hull (s : IntSet) : s.hull.Proper := by
  unfold hull
  split
  · exact Interval.proper_ofBounds _ _
  · exact Interval.proper_empty

theorem IntSet.within_hull_iff {s : IntSet} {onto : Interval} (proper : onto.Proper) :
    s.hull.Within onto ↔ ∀ n ∈ s.values, onto.Encloses (value (Binary64.ofInt n)) := by
  constructor
  · exact fun within n member => within.encloses (encloses_hull member)
  · intro all
    cases first : s.min? with
    | none =>
        have none : s.hull = Interval.empty := by simp only [hull, first]
        rw [none]
        exact Interval.within_empty proper
    | some least =>
        have member : least ∈ s.values := List.mem_of_mem_head? first
        obtain ⟨_, greatest, -, last⟩ := exists_extremes member
        have member' : greatest ∈ s.values := List.mem_of_getLast? last
        have number := Binary64.isNumber_ofInt
        simp only [hull, first, last, Interval.ofBounds_of_isNumber (number least) (number greatest)]
        exact ⟨⟨number least, number greatest⟩, proper, (all least member).lower, (all greatest member').upper⟩

namespace Domain

/-- All values of a domain are values of another domain of the same kind. -/
def Inside : Domain → Domain → Prop
  | finite s, finite t => ∀ n ∈ s.values, n ∈ t.values
  | real r, real q => r.precision = q.precision ∧ r.interval.Within q.interval
  | _, _ => False

variable {c d e : Domain}

theorem Inside.refl (proper : d.Proper) : d.Inside d := by
  cases d with
  | finite s => exact fun n member => member
  | real r => exact ⟨rfl, .refl proper⟩

theorem Inside.trans (first : c.Inside d) (second : d.Inside e) : c.Inside e := by
  cases c <;> cases d <;> cases e <;> try contradiction
  · exact fun n member => second n (first n member)
  · exact ⟨first.1.trans second.1, first.2.trans second.2⟩

theorem Inside.proper (inside : d.Inside e) : d.Proper ∧ e.Proper := by
  cases d <;> cases e <;> try contradiction
  · exact ⟨trivial, trivial⟩
  · exact ⟨inside.2.inner, inside.2.outer⟩

theorem proper_hull (proper : d.Proper) : d.hull.Proper := by
  cases d with
  | finite s => exact s.proper_hull
  | real r => exact proper

theorem Inside.hull (inside : d.Inside e) : d.hull.Within e.hull := by
  cases d <;> cases e <;> try contradiction
  · next s t =>
      exact (IntSet.within_hull_iff t.proper_hull).2 fun n member => IntSet.encloses_hull (inside n member)
  · exact inside.2

theorem hull_notEmpty (some : d.isEmpty = false) : d.hull.isEmpty = false := by
  cases d with
  | finite s =>
      obtain ⟨n, member⟩ := List.isEmpty_eq_false_iff_exists_mem.1 some
      exact (IntSet.encloses_hull member).notEmpty
  | real r => exact some

/-- A part of a domain that passes a test, and that has every other such part inside. -/
structure GreatestPart (test : Domain → Prop) (old new : Domain) : Prop where
  inside : new.Inside old
  passes : test new
  some : old.isEmpty = false → new.isEmpty = false
  greatest : ∀ e, e.isEmpty = false → e.Inside old → test e → e.Inside new

def All (keep : Int → Bool) : Domain → Prop
  | finite s => ∀ n ∈ s.values, keep n = true
  | real _ => True

variable {test test' : Domain → Prop}

theorem GreatestPart.refl (proper : d.Proper) (passes : test d) : GreatestPart test d d where
  inside := .refl proper
  passes := passes
  some := id
  greatest _ _ inside _ := inside

theorem GreatestPart.congr (same : ∀ c, c.Inside d → (test c ↔ test' c)) (part : GreatestPart test d e) :
    GreatestPart test' d e where
  inside := part.inside
  passes := (same e part.inside).1 part.passes
  some := part.some
  greatest c some inside passes := part.greatest c some inside ((same c inside).2 passes)

theorem greatestPart_filter {s : IntSet} {keep : Int → Bool} (some : (s.filter keep).isEmpty = false) :
    GreatestPart (All keep) (finite s) (finite (s.filter keep)) where
  inside _ member := (IntSet.mem_filter.1 member).1
  passes _ member := (IntSet.mem_filter.1 member).2
  some _ := some
  greatest e _ inside passes := by
    cases e with
    | real _ => exact inside.elim
    | finite t => exact fun n member => IntSet.mem_filter.2 ⟨inside n member, passes n member⟩

theorem greatestPart_intersect {r : RealDomain} {onto : Interval} (proper : r.interval.Proper)
    (properOnto : onto.Proper) (some : (r.interval.intersect onto).isEmpty = false) :
    GreatestPart (fun e => e.hull.Within onto) (real r)
      (real { r with interval := r.interval.intersect onto }) := by
  have within := (Interval.within_intersect_iff proper properOnto
    (Interval.proper_intersect proper onto) some).1 (.refl (Interval.proper_intersect proper onto))
  refine ⟨⟨rfl, within.1⟩, within.2, fun _ => some, fun e someE inside passes => ?_⟩
  cases e with
  | finite _ => exact inside.elim
  | real q =>
      exact ⟨inside.1, (Interval.within_intersect_iff proper properOnto inside.2.inner someE).2 ⟨inside.2, passes⟩⟩

end Domain

/-! ## Variables -/

namespace Variables

/-- Variables of the same names with smaller domains, none of which is empty. -/
structure Inside (small big : Variables) : Prop where
  size : small.size = big.size
  domain : ∀ v x, small.get? v = some x →
    ∃ y, big.get? v = some y ∧ x.name = y.name ∧ x.domain.Inside y.domain
  some : ∀ v x, small.get? v = some x → x.domain.isEmpty = false

variable {small middle big vars after : Variables} {v w : Var} {x : Variable} {d : Domain}

theorem Inside.self (inside : small.Inside big) : small.Inside small where
  size := rfl
  domain v x found := by
    obtain ⟨y, -, -, within⟩ := inside.domain v x found
    exact ⟨x, found, rfl, .refl within.proper.1⟩
  some := inside.some

theorem Inside.trans (first : small.Inside middle) (second : middle.Inside big) : small.Inside big where
  size := first.size.trans second.size
  domain v x found := by
    obtain ⟨y, found', name, within⟩ := first.domain v x found
    obtain ⟨z, found'', name', within'⟩ := second.domain v y found'
    exact ⟨z, found'', name.trans name', within.trans within'⟩
  some := first.some

theorem Inside.get?_eq_none (inside : small.Inside big) (missing : small.get? v = none) : big.get? v = none := by
  have size : small.arena.size = big.arena.size := inside.size
  rw [get?, Array.getElem?_eq_none_iff] at missing ⊢
  omega

/-- What is known of a variable in more detail lies within what is known of it otherwise. -/
theorem Inside.bounds (inside : small.Inside big) (v : Var) : (small.bounds v).Within (big.bounds v) := by
  unfold Variables.bounds
  cases found : small.get? v with
  | none =>
      rw [inside.get?_eq_none found]
      exact .refl Interval.proper_entire
  | some x =>
      obtain ⟨y, found', -, within⟩ := inside.domain v x found
      rw [found']
      exact within.hull

/-- The domain of one variable is replaced, and everything else about the variables is kept. -/
structure Replaced (before : Variables) (v : Var) (d : Domain) (after : Variables) : Prop where
  size : after.size = before.size
  here : after.get? v = (before.get? v).map fun x => { x with domain := d }
  elsewhere : ∀ w, w ≠ v → after.get? w = before.get? w

theorem Replaced.refl (found : vars.get? v = some x) : vars.Replaced v x.domain vars where
  size := rfl
  here := by rw [found]; rfl
  elsewhere _ _ := rfl

theorem replaced_setDomain (vars : Variables) (v : Var) (old d : Domain) :
    vars.Replaced v d ((vars.save v old).setDomain v d) where
  size := by simp only [size, arena_replaced, Array.size_modify]
  here := by simp only [get?, arena_replaced, Array.getElem?_modify, if_true]
  elsewhere w other := by
    have apart : v.index ≠ w.index := fun same => other (congrArg Var.mk same.symm)
    simp only [get?, arena_replaced, Array.getElem?_modify, if_neg apart]

theorem Replaced.record (replaced : vars.Replaced v d after) (w : Var) : vars.Replaced v d (after.record w) :=
  ⟨replaced.size, replaced.here, replaced.elsewhere⟩

end Variables

/-! ## Narrowing -/

section

variable {α β : Type} {v : Var} {e : Domain} {test test' : Domain → Prop} {onto onto' : Interval}

/-- An operation that succeeds leaves no more of the variables than there was, and of each of them some values. -/
def Shrinks (operation : NarrowM α) : Prop :=
  ∀ vars, vars.Inside vars → Ensures operation vars (fun _ after => after.Inside vars) fun _ _ => True

/-- An operation replaces the domain of a variable by its greatest part that passes a test. It says that there is
    no solution only if no part passes. -/
def LeavesPart (operation : NarrowM α) (vars : Variables) (v : Var) (d : Domain) (test : Domain → Prop) : Prop :=
  Ensures operation vars (fun _ after => ∃ part, vars.Replaced v part after ∧ d.GreatestPart test part)
    fun failure _ => failure.Infeasible → ∀ e, e.isEmpty = false → e.Inside d → ¬ test e

theorem LeavesPart.congr {operation : NarrowM α} {vars : Variables} {d : Domain}
    (leaves : LeavesPart operation vars v d test) (same : ∀ e, e.Inside d → (test e ↔ test' e)) :
    LeavesPart operation vars v d test' :=
  Ensures.mono leaves (fun _ _ ⟨part, replaced, greatest⟩ => ⟨part, replaced, greatest.congr same⟩)
    fun _ _ nothing infeasible e some inside passes => nothing infeasible e some inside ((same e inside).2 passes)

theorem LeavesPart.discard {operation : NarrowM α} {vars : Variables} {d : Domain}
    (leaves : LeavesPart operation vars v d test) : LeavesPart (discard operation) vars v d test :=
  ensures_discard.2 leaves

/-- On every domain of a variable, an operation leaves the greatest part that passes a test. -/
structure Narrows (operation : NarrowM α) (v : Var) (test : Domain → Prop) : Prop where
  missing : ∀ vars : Variables, vars.get? v = none → Ensures operation vars (fun _ _ => False) fun _ _ => True
  found : ∀ (vars : Variables) (x : Variable), vars.get? v = some x → x.domain.Proper →
    LeavesPart operation vars v x.domain test

namespace Variables

variable {small big vars narrowed after : Variables} {x y : Variable} {d e : Domain}

theorem Inside.replaced (inside : vars.Inside vars) (found : vars.get? v = .some x) (part : d.Inside x.domain)
    (some : d.isEmpty = false) (replaced : vars.Replaced v d after) : after.Inside vars where
  size := replaced.size
  domain w z listed := by
    by_cases here : w = v
    · subst here
      rw [replaced.here, found] at listed
      obtain rfl := Option.some.inj listed
      exact ⟨x, found, rfl, part⟩
    · rw [replaced.elsewhere w here] at listed
      exact inside.domain w z listed
  some w z listed := by
    by_cases here : w = v
    · subst here
      rw [replaced.here, found] at listed
      obtain rfl := Option.some.inj listed
      exact some
    · rw [replaced.elsewhere w here] at listed
      exact inside.some w z listed

end Variables

theorem Narrows.shrinks {operation : NarrowM α} (narrows : Narrows operation v test) : Shrinks operation := by
  intro vars inside
  cases found : vars.get? v with
  | none => exact (narrows.missing vars found).mono (fun _ _ => False.elim) fun _ _ => id
  | some x =>
      obtain ⟨y, -, -, within⟩ := inside.domain v x found
      refine (narrows.found vars x found within.proper.1).mono (fun _ after ⟨d, replaced, part⟩ => ?_)
        fun _ _ _ => trivial
      exact inside.replaced found part.inside (part.some (inside.some v x found)) replaced

theorem Narrows.discard {operation : NarrowM α} (narrows : Narrows operation v test) :
    Narrows (discard operation) v test where
  missing vars none := ensures_discard.2 (narrows.missing vars none)
  found vars x found proper := (narrows.found vars x found proper).discard

theorem ensures_missing {operation : Variable → NarrowM α} {vars : Variables} (missing : vars.get? v = none) :
    Ensures (Variables.fetch v >>= operation) vars (fun _ _ => False) fun _ _ => True := by
  rw [Ensures, fetch_bind_missing missing]
  trivial

theorem narrows_retain (v : Var) (keep : Int → Bool) : Narrows (Variables.retain v keep) v (Domain.All keep) where
  missing _ none := ensures_missing none
  found vars x found proper := by
    cases domain : x.domain with
    | real r =>
        rw [LeavesPart, Ensures, retain_real found domain]
        exact fun infeasible => by simp [Failure.Infeasible, Error.kind] at infeasible
    | finite s =>
        rw [LeavesPart, Ensures, retain_eq found domain]
        split_ifs with all none
        · refine ⟨.finite s, domain ▸ .refl found, .refl trivial fun n member => ?_⟩
          exact List.all_eq_true.1 all n member
        · intro _ e some inside passes
          cases e with
          | real _ => exact inside.elim
          | finite t =>
              obtain ⟨n, member⟩ := List.isEmpty_eq_false_iff_exists_mem.1 some
              have kept : n ∈ (s.filter keep).values := IntSet.mem_filter.2 ⟨inside n member, passes n member⟩
              rw [IntSet.isEmpty, List.isEmpty_iff] at none
              exact List.not_mem_nil (none ▸ kept)
        · rw [Bool.not_eq_true] at none
          exact ⟨_, (Variables.replaced_setDomain vars v x.domain _).record v, Domain.greatestPart_filter none⟩

theorem all_iff_within_hull (proper : onto.Proper) {s : IntSet} (inside : e.Inside (.finite s)) :
    e.All (fun n => decide (Binary64.ofInt n ≥ onto.lo) && decide (Binary64.ofInt n ≤ onto.hi)) ↔
      e.hull.Within onto := by
  cases e with
  | real _ => exact inside.elim
  | finite t =>
      refine Iff.trans ?_ (IntSet.within_hull_iff proper).symm
      refine forall₂_congr fun n _ => ?_
      simp only [ge_iff_le, Bool.and_eq_true, decide_eq_true_eq, Binary64.le_iff, Binary64.isNumber_ofInt,
        proper.lo, proper.hi, true_and]
      exact ⟨fun between => ⟨proper, between.1, between.2⟩, fun encloses => ⟨encloses.lower, encloses.upper⟩⟩

/-- A real domain is left alone, or replaced by its intersection, which is not empty. -/
theorem ensures_narrow_real {vars : Variables} {x : Variable} {r : RealDomain} (found : vars.get? v = some x)
    (domain : x.domain = .real r) :
    Ensures (Variables.narrow v onto) vars
      (fun _ after =>
        ((r.interval.intersect onto).sameBounds r.interval = true ∧ after = vars) ∨
          ((r.interval.intersect onto).isEmpty = false ∧
            vars.Replaced v (.real { r with interval := r.interval.intersect onto }) after))
      fun _ _ => (r.interval.intersect onto).isEmpty = true := by
  rw [Ensures, narrow_eq_real found domain]
  dsimp only
  by_cases same : (r.interval.intersect onto).sameBounds r.interval = true
  · rw [if_pos same]
    exact .inl ⟨same, rfl⟩
  · rw [if_neg same]
    by_cases none : (r.interval.intersect onto).isEmpty = true
    · rw [if_pos none]
      exact none
    · rw [if_neg none]
      have replaced := Variables.replaced_setDomain vars v x.domain
        (.real { r with interval := r.interval.intersect onto })
      refine .inr ⟨Bool.eq_false_iff.2 none, ?_⟩
      split_ifs
      · exact replaced.record v
      · exact replaced

/-- If the least and the greatest value lie in an interval, then all of them do. -/
theorem narrow_eq_retain {vars : Variables} {x : Variable} {s : IntSet} (proper : onto.Proper)
    (found : vars.get? v = some x) (domain : x.domain = .finite s) :
    Variables.narrow v onto vars =
      Variables.retain v
        (fun n => decide (Binary64.ofInt n ≥ onto.lo) && decide (Binary64.ofInt n ≤ onto.hi)) vars := by
  rw [narrow_eq_finite found domain]
  split_ifs with trims
  · rfl
  · rw [retain_eq found domain, if_pos]
    refine List.all_eq_true.2 fun n member => ?_
    obtain ⟨least, greatest, first, last⟩ := IntSet.exists_extremes member
    have number := Binary64.isNumber_ofInt
    simp only [first, last, Option.any_some, gt_iff_lt, Bool.or_eq_true, decide_eq_true_eq, not_or,
      Binary64.not_lt_iff (number least) proper.lo, Binary64.not_lt_iff proper.hi (number greatest)] at trims
    simp only [ge_iff_le, Bool.and_eq_true, decide_eq_true_eq, Binary64.le_iff, number, proper.lo, proper.hi, true_and]
    exact ⟨trims.1.trans (Binary64.value_ofInt_mono (IntSet.min?_le first member)),
      (Binary64.value_ofInt_mono (IntSet.le_max? last member)).trans trims.2⟩

theorem narrows_narrow (v : Var) (proper : onto.Proper) :
    Narrows (Variables.narrow v onto) v fun e => e.hull.Within onto where
  missing _ none := ensures_missing none
  found vars x found properX := by
    cases domain : x.domain with
    | finite s =>
        rw [LeavesPart, Ensures, narrow_eq_retain proper found domain]
        have filters {keep : Int → Bool} := (narrows_retain v keep).found vars x found properX
        rw [domain] at filters
        exact filters.congr fun e => all_iff_within_hull proper
    | real r =>
        have properR : r.interval.Proper := by simpa [domain, Domain.Proper] using properX
        refine (ensures_narrow_real found domain).mono (fun _ after ended => ?_) fun _ _ none _ => ?_
        · rcases ended with ⟨same, rfl⟩ | ⟨some, replaced⟩
          · refine ⟨.real r, domain ▸ .refl found, .refl properR ?_⟩
            obtain ⟨lower, upper⟩ := Bool.and_eq_true_iff.1 same
            have within := Interval.within_intersect_right properR proper
            exact ⟨properR, proper, (Binary64.beq_iff.1 lower).2.2 ▸ within.lower,
              (Binary64.beq_iff.1 upper).2.2 ▸ within.upper⟩
          · exact ⟨_, replaced, Domain.greatestPart_intersect properR proper some⟩
        · intro e some inside passes
          cases e with
          | finite _ => exact inside.elim
          | real q =>
              have both := (Interval.within_intersect_iff properR proper inside.2.inner some).2
                ⟨inside.2, passes⟩
              rw [both.notEmpty some] at none
              exact absurd none (by decide)

/-- All values of a domain are values of another one, or lie between its bounds if not both are finite. -/
def Domain.Obeys (onto : Domain) : Domain → Prop
  | finite s =>
      match onto with
      | finite t => (finite s).All t.contains
      | real q => s.hull.Within q.interval
  | real r => r.interval.Within onto.hull

theorem Domain.Obeys.mono {onto onto' e : Domain} (inside : onto.Inside onto') (obeys : onto.Obeys e) :
    onto'.Obeys e := by
  cases e with
  | real r => exact obeys.trans inside.hull
  | finite s =>
      cases onto with
      | finite t =>
          cases onto' with
          | real _ => exact inside.elim
          | finite u =>
              intro n member
              have listed := obeys n member
              rw [IntSet.contains, List.contains_iff_mem] at listed ⊢
              exact inside n listed
      | real q =>
          cases onto' with
          | finite _ => exact inside.elim
          | real p => exact obeys.trans inside.2

theorem narrows_restrict (v : Var) {onto : Domain} (proper : onto.Proper) :
    Narrows (Variables.restrict v onto) v onto.Obeys where
  missing _ none := ensures_missing none
  found vars x found properX := by
    have filters {keep : Int → Bool} := (narrows_retain v keep).found vars x found properX
    have cuts := (narrows_narrow v (Domain.proper_hull proper)).found vars x found properX
    rw [Variables.restrict, LeavesPart, Ensures, fetch_bind found]
    cases domain : x.domain with
    | finite s =>
        rw [domain] at filters cuts
        cases onto with
        | finite t =>
            refine filters.congr fun e inside => ?_
            cases e with
            | finite _ => exact Iff.rfl
            | real _ => exact inside.elim
        | real q =>
            refine cuts.congr fun e inside => ?_
            cases e with
            | finite _ => exact Iff.rfl
            | real _ => exact inside.elim
    | real r =>
        rw [domain] at cuts
        refine cuts.congr fun e inside => ?_
        cases e with
        | finite _ => exact inside.elim
        | real _ => exact Iff.rfl

/-- A bound that is no number may stop a narrowing, but it adds nothing. -/
theorem shrinks_narrow (v : Var) (onto : Interval) : Shrinks (Variables.narrow v onto) := by
  intro vars inside
  cases found : vars.get? v with
  | none => exact (ensures_missing found).mono (fun _ _ => False.elim) fun _ _ => id
  | some x =>
      obtain ⟨y, -, -, within⟩ := inside.domain v x found
      cases domain : x.domain with
      | finite s =>
          rw [Ensures, narrow_eq_finite found domain]
          split_ifs
          · exact (narrows_retain v _).shrinks vars inside
          · exact inside
      | real r =>
          have proper : r.interval.Proper := by simpa [domain, Domain.Proper] using within.proper.1
          refine (ensures_narrow_real found domain).mono (fun _ after ended => ?_) fun _ _ _ => trivial
          rcases ended with ⟨-, rfl⟩ | ⟨some, replaced⟩
          · exact inside
          · have part : (Domain.real { r with interval := r.interval.intersect onto }).Inside x.domain :=
              domain ▸ ⟨rfl, Interval.within_intersect_left proper onto⟩
            exact inside.replaced found part some replaced

/-- Whatever only reads and narrows leaves no more than there was. -/
theorem Local.shrinks {known : Var → Prop} {operation : NarrowM α} (isLocal : Local known operation) :
    Shrinks operation := by
  induction isLocal with
  | pure a => exact fun vars inside => inside
  | fail _ => exact fun vars _ => trivial
  | bind head tail ihHead ihTail =>
      intro vars inside
      refine ensures_bind.2 ((ihHead vars inside).mono (fun a middle first => ?_) fun _ _ _ => trivial)
      exact (ihTail a middle first.self).mono (fun _ _ second => second.trans first) fun _ _ _ => trivial
  | read tail same ih => exact fun vars inside => ih vars vars inside
  | @fetch v _ =>
      intro vars inside
      cases found : vars.get? v with
      | none =>
          rw [Ensures, fetch_missing found]
          trivial
      | some x =>
          rw [Ensures, fetch_eq found]
          exact inside
  | retain _ keep => exact (narrows_retain _ keep).shrinks
  | narrow _ onto => exact shrinks_narrow _ onto

end

/-! ## The other variables -/

section

variable {α : Type} {vars : Variables} {v w : Var} {keep : List Int → Int → Bool}

theorem sift_elsewhere (other : w ≠ v) :
    Ensures (Variables.sift v keep) vars (fun _ after => after.get? w = vars.get? w)
      fun _ after => after.get? w = vars.get? w := by
  cases found : vars.get? v with
  | none => rw [Ensures, sift_missing found]
  | some x =>
      cases domain : x.domain with
      | real r => rw [Ensures, sift_real found domain]
      | finite s =>
          rcases sift_cases keep found domain with ⟨-, same⟩ | ⟨asked, -, same⟩
          · rw [Ensures, same]
          · have elsewhere :=
              (Variables.replaced_setDomain vars v x.domain (.finite (s.sift keep asked))).elsewhere w other
            rw [Ensures, same]
            split_ifs
            · exact elsewhere
            · exact elsewhere

theorem narrow_elsewhere {onto : Interval} (other : w ≠ v) :
    Ensures (Variables.narrow v onto) vars (fun _ after => after.get? w = vars.get? w)
      fun _ after => after.get? w = vars.get? w := by
  cases found : vars.get? v with
  | none => rw [Ensures, narrow_missing found]
  | some x =>
      cases domain : x.domain with
      | finite s =>
          rw [Ensures, narrow_eq_finite found domain]
          split_ifs
          · exact sift_elsewhere other
          · rfl
      | real r =>
          have elsewhere := (Variables.replaced_setDomain vars v x.domain
            (.real { r with interval := r.interval.intersect onto })).elsewhere w other
          rw [Ensures, narrow_eq_real found domain]
          dsimp only
          split_ifs
          · rfl
          · rfl
          · exact elsewhere
          · exact elsewhere

/-- Whatever only reads and narrows some variables leaves the others alone, however it ends. -/
theorem Local.elsewhere {known : Var → Prop} {operation : NarrowM α} (isLocal : Local known operation)
    (other : ¬ known w) (vars : Variables) :
    Ensures operation vars (fun _ after => after.get? w = vars.get? w) fun _ after => after.get? w = vars.get? w := by
  induction isLocal generalizing vars with
  | pure _ => exact rfl
  | fail _ => exact rfl
  | bind head tail ihHead ihTail =>
      exact ensures_bind.2 ((ihHead vars).mono (fun a middle first =>
        (ihTail a middle).mono (fun _ _ second => second.trans first) fun _ _ second => second.trans first)
        fun _ _ first => first)
  | read tail same ih => exact ih vars vars
  | fetch _ => exact ensures_fetch (fun _ _ => rfl) fun _ => rfl
  | retain member keep => exact sift_elsewhere fun same => other (same ▸ member)
  | narrow member onto => exact narrow_elsewhere fun same => other (same ▸ member)

end

end StatBounds
