import StatBounds.Proofs.Propagation.Counts
import StatBounds.Proofs.Propagation.Monotone

/-! # Bin counts are monotone

Whatever assignment of items to bins is feasible for smaller domains and ranges is feasible for larger ones. The
filter is exact, so it succeeds on the larger ones too, and leaves no less of them.
-/

namespace StatBounds

open Binary64 (value ofInt toInt?)

/-- Each of two ranges holds all numbers of the first one. -/
def RangeInside (range range' : Nat × Nat) : Prop :=
  range'.1 ≤ range.1 ∧ range.2 ≤ range'.2

/-- The range of a count reaches from the least to the greatest number of items between the extremes of the domain. -/
theorem range_of_countRangeOf {s : IntSet} {least greatest : Int} {items : Nat} {range : Nat × Nat}
    (first : s.min? = some least) (last : s.max? = some greatest)
    (read : countRangeOf items (.finite s) = some range) :
    ∃ lo hi : ℤ, range = (lo.toNat, hi.toNat) ∧ 0 ≤ lo ∧ lo ≤ hi ∧ max (value (ofInt least)) 0 = ((lo : ℝ) : EReal) ∧
      min (value (ofInt greatest)) (value (ofInt items)) = ((hi : ℝ) : EReal) := by
  simp only [countRangeOf, hull_eq first last, Option.bind_eq_bind, Option.bind_eq_some_iff] at read
  obtain ⟨lo, readLo, hi, readHi, made⟩ := read
  split_ifs at made with order
  have number := Binary64.isNumber_ofInt
  have lower := Binary64.value_of_toInt? readLo
  have upper : value (Binary64.smaller (ofInt greatest) (ofInt items)) = ((hi : ℝ) : EReal) :=
    Binary64.value_of_toInt? readHi
  rw [Binary64.value_larger (number least) Binary64.isNumber_zero, Binary64.value_zero] at lower
  rw [Binary64.value_smaller (number greatest) (number items)] at upper
  have nonneg : 0 ≤ lo := by exact_mod_cast lower ▸ le_max_right (value (ofInt least)) 0
  exact ⟨lo, hi, (Option.some.inj made).symm, nonneg, order, lower, upper⟩

theorem countRangeOf_mono {d e : Domain} {items : Nat} (few : items < 2 ^ 63) (inside : d.Inside e)
    (some : d.isEmpty = false) {range : Nat × Nat} (read : countRangeOf items d = .some range) :
    ∃ range', countRangeOf items e = .some range' ∧ RangeInside range range' := by
  cases d with
  | real r => simp [countRangeOf] at read
  | finite s =>
      cases e with
      | real q => exact inside.elim
      | finite t =>
          obtain ⟨n, member⟩ := List.isEmpty_eq_false_iff_exists_mem.1 some
          obtain ⟨least, greatest, first, last⟩ := IntSet.exists_extremes member
          obtain ⟨least', greatest', first', last'⟩ := IntSet.exists_extremes (inside n member)
          have below := Binary64.value_ofInt_mono (IntSet.min?_le first' (inside least (List.mem_of_mem_head? first)))
          have above :=
            Binary64.value_ofInt_mono (IntSet.le_max? last' (inside greatest (List.mem_of_getLast? last)))
          obtain ⟨lo, hi, rfl, nonneg, order, lower, upper⟩ := range_of_countRangeOf first last read
          obtain ⟨lo', readLo', -, leLo⟩ := exists_toInt?_larger
            (by exact_mod_cast nonneg : (0 : ℝ) ≤ lo) (below.trans (lower ▸ le_max_left _ _))
          obtain ⟨hi', readHi', leHi⟩ := exists_toInt?_smaller few
            ((upper ▸ min_le_left _ _ : ((hi : ℝ) : EReal) ≤ _).trans above) (upper ▸ min_le_right _ _)
          have leLo : lo' ≤ lo := by exact_mod_cast leLo
          have leHi : hi ≤ hi' := by exact_mod_cast leHi
          refine ⟨(lo'.toNat, hi'.toNat), ?_, Int.toNat_le_toNat leLo, Int.toNat_le_toNat leHi⟩
          simp only [countRangeOf, hull_eq first' last', readLo', readHi', Option.bind_eq_bind, Option.bind_some]
          rw [if_pos (leLo.trans (order.trans leHi))]

/-! ## Subsets -/

namespace Domain

/-- All values of a domain are values of another one of the same kind, whatever their precisions are. -/
def Subset : Domain → Domain → Prop
  | finite s, finite t => ∀ n ∈ s.values, n ∈ t.values
  | real r, real q => ∀ x : EReal, r.interval.Encloses x → q.interval.Encloses x
  | _, _ => False

variable {d e : Domain}

theorem Subset.refl (d : Domain) : d.Subset d := by
  cases d with
  | finite s => exact fun n member => member
  | real r => exact fun x encloses => encloses

theorem Inside.subset (inside : d.Inside e) : d.Subset e := by
  cases d <;> cases e <;> try contradiction
  · exact inside
  · exact fun x => inside.2.encloses

/-- A subset lies inside, if a real one has the same precision, and has the usual bounds if it is empty. -/
theorem Subset.inside (subset : d.Subset e) (proper : d.Proper) (proper' : e.Proper)
    (same : ∀ r q, d = .real r → e = .real q → r.precision = q.precision)
    (usual : ∀ r, d = .real r → r.interval.isEmpty = true → r.interval = .empty) : d.Inside e := by
  cases d <;> cases e <;> try contradiction
  · exact subset
  · next r q =>
      refine ⟨same r q rfl rfl, ?_⟩
      cases empty : r.interval.isEmpty with
      | true => exact usual r rfl empty ▸ Interval.within_empty proper'
      | false =>
          have order := (Interval.isEmpty_eq_false_iff proper).1 empty
          exact (Interval.within_iff_encloses proper empty).2
            ⟨subset _ ⟨proper, le_rfl, order⟩, subset _ ⟨proper, order, le_rfl⟩⟩

/-- A domain meets every half-open interval that a subset meets, whatever the bounds. -/
theorem Subset.meets (subset : d.Subset e) {lb ub : Float} (meets : d.meets lb ub = true) : e.meets lb ub = true := by
  cases d <;> cases e <;> try contradiction
  · obtain ⟨n, member, within⟩ := IntSet.meets_iff_not_lt.1 meets
    exact IntSet.meets_iff_not_lt.2 ⟨n, subset n member, within⟩
  · obtain ⟨proper, some, low, high⟩ := RealDomain.meets_iff_bounds.1 meets
    have order := (Interval.isEmpty_eq_false_iff proper).1 some
    have first := subset _ ⟨proper, le_rfl, order⟩
    have last := subset _ ⟨proper, order, le_rfl⟩
    rw [Binary64.lt_iff] at low
    rw [Binary64.le_iff] at high
    refine RealDomain.meets_iff_bounds.2 ⟨first.proper, first.notEmpty, ?_, ?_⟩
    · exact Binary64.lt_iff.2 ⟨first.proper.lo, low.2.1, first.lower.trans_lt low.2.2⟩
    · exact Binary64.le_iff.2 ⟨high.1, first.proper.hi, high.2.2.trans last.upper⟩

end Domain

/-! ## Filters -/

namespace BinCountFilter

variable {f : BinCountFilter} {items items' : List Domain} {counts counts' : List (Nat × Nat)}

theorem Feasible.mono {bins : List Nat} (feasible : f.Feasible items counts bins)
    (subsets : List.Forall₂ Domain.Subset items items') (ranges : List.Forall₂ RangeInside counts counts') :
    f.Feasible items' counts' bins := by
  obtain ⟨met, counted⟩ := feasible
  refine ⟨?_, fun b range' found => ?_⟩
  · rw [List.forall₂_iff_get] at met subsets ⊢
    refine ⟨met.1.trans subsets.1, fun i small small' => ?_⟩
    obtain ⟨bin, found, meets⟩ := met.2 i small (met.1 ▸ small)
    exact ⟨bin, found, (subsets.2 i _ small').meets meets⟩
  · obtain ⟨small', rfl⟩ := List.getElem?_eq_some_iff.1 found
    have small : b < counts.length := ranges.length_eq ▸ small'
    have ⟨lower, upper⟩ := counted b _ (List.getElem?_eq_getElem small)
    have within := ranges.get small small'
    exact ⟨within.1.trans lower, upper.trans within.2⟩

section

variable {given given' : Bin → Prop} {d e left left' : Domain}

theorem Leaves.proper (leaves : Leaves given d left) : left.Proper := by
  cases d <;> cases left <;> try contradiction
  · trivial
  · exact leaves.2.1

/-- If nothing is left of an interval, that is the empty interval. -/
theorem Leaves.usual (leaves : Leaves given d left) :
    ∀ r, left = .real r → r.interval.isEmpty = true → r.interval = .empty := by
  rintro r rfl
  cases d with
  | finite s => exact leaves.elim
  | real q => exact leaves.2.2.1

theorem Leaves.subset_self (leaves : Leaves given d left) : left.Subset d := by
  cases d <;> cases left <;> try contradiction
  · exact fun v member => ((leaves v).1 member).1
  · exact fun x encloses => ((leaves.2.2.2 x).1 encloses).1

theorem Leaves.inside_self (leaves : Leaves given d left) (proper : d.Proper) : left.Inside d := by
  refine leaves.subset_self.inside leaves.proper proper ?_ leaves.usual
  rintro r q rfl rfl
  exact leaves.1

/-- More bins leave no less of a larger domain. -/
theorem Leaves.subset (leaves : Leaves given d left) (leaves' : Leaves given' e left')
    (more : ∀ bin, given bin → given' bin) (subset : d.Subset e) : left.Subset left' := by
  cases d <;> cases e <;> cases left <;> cases left' <;> try contradiction
  · intro v member
    obtain ⟨known, bin, gives, contains⟩ := (leaves v).1 member
    exact (leaves' v).2 ⟨subset v known, bin, more bin gives, contains⟩
  · intro x member
    obtain ⟨known, ⟨low, gives, begins⟩, high, gives', ends⟩ := (leaves.2.2.2 x).1 member
    exact (leaves'.2.2.2 x).2 ⟨subset x known, ⟨low, more low gives, begins⟩, high, more high gives', ends⟩

theorem Leaves.inside (leaves : Leaves given d left) (leaves' : Leaves given' e left')
    (more : ∀ bin, given bin → given' bin) (inside : d.Inside e) : left.Inside left' := by
  refine (leaves.subset leaves' more inside.subset).inside leaves.proper leaves'.proper ?_ leaves.usual
  rintro r q rfl rfl
  cases d <;> cases e <;> try contradiction
  exact leaves.1.trans (inside.1.trans leaves'.1.symm)

end

/-- The filter leaves no less of larger ranges. -/
theorem Exact.ranges_mono {out out' : Filtered} (exact : f.Exact items counts out)
    (exact' : f.Exact items' counts' out') (subsets : List.Forall₂ Domain.Subset items items')
    (ranges : List.Forall₂ RangeInside counts counts') : List.Forall₂ RangeInside out.counts out'.counts := by
  have lengths : out.counts.length = out'.counts.length := by
    rw [exact.sameCounts, exact'.sameCounts, ranges.length_eq]
  refine List.forall₂_iff_get.2 ⟨lengths, fun b small small' => ?_⟩
  obtain ⟨bins, feasible, fewest⟩ := (exact.least b _ (List.getElem?_eq_getElem small)).1
  obtain ⟨bins', feasible', most⟩ := (exact.greatest b _ (List.getElem?_eq_getElem small)).1
  exact ⟨(exact'.least b _ (List.getElem?_eq_getElem small')).2 ⟨bins, feasible.mono subsets ranges, fewest⟩,
    (exact'.greatest b _ (List.getElem?_eq_getElem small')).2 ⟨bins', feasible'.mono subsets ranges, most⟩⟩

/-- What is left of the items is related as it is for each item, if there is more to be given to the larger ones. -/
theorem Exact.items_mono {out out' : Filtered} (exact : f.Exact items counts out)
    (exact' : f.Exact items' counts' out') (subsets : List.Forall₂ Domain.Subset items items')
    (ranges : List.Forall₂ RangeInside counts counts') {related : Domain → Domain → Prop}
    (each : ∀ i d e left left', items[i]? = some d → items'[i]? = some e →
      Leaves (f.Gives items counts i) d left → Leaves (f.Gives items' counts' i) e left' →
      (∀ bin, f.Gives items counts i bin → f.Gives items' counts' i bin) → related left left') :
    List.Forall₂ related out.items out'.items := by
  refine List.forall₂_iff_get.2 ⟨by rw [exact.sameItems, exact'.sameItems, subsets.length_eq], fun i small small' => ?_⟩
  have known := List.getElem?_eq_getElem (exact.sameItems ▸ small : i < items.length)
  have known' := List.getElem?_eq_getElem (exact'.sameItems ▸ small' : i < items'.length)
  exact each i _ _ _ _ known known' (exact.leaves i _ _ known (List.getElem?_eq_getElem small))
    (exact'.leaves i _ _ known' (List.getElem?_eq_getElem small'))
    fun bin ⟨bins, b, feasible, gives⟩ => ⟨bins, b, feasible.mono subsets ranges, gives⟩

/-- The filter leaves no less of larger domains and ranges. -/
theorem Exact.mono {out out' : Filtered} (exact : f.Exact items counts out) (exact' : f.Exact items' counts' out')
    (inside : List.Forall₂ Domain.Inside items items') (ranges : List.Forall₂ RangeInside counts counts') :
    List.Forall₂ Domain.Inside out.items out'.items ∧ List.Forall₂ RangeInside out.counts out'.counts := by
  have subsets := inside.imp fun _ _ => Domain.Inside.subset
  refine ⟨exact.items_mono exact' subsets ranges fun i d e left left' input input' leaves leaves' more => ?_,
    exact.ranges_mono exact' subsets ranges⟩
  obtain ⟨small, rfl⟩ := List.getElem?_eq_some_iff.1 input
  obtain ⟨small', rfl⟩ := List.getElem?_eq_some_iff.1 input'
  exact leaves.inside leaves' more (inside.get small small')

/-- A filter that succeeds on smaller domains and ranges does not claim that there is no assignment for larger
    ones. -/
theorem filter_mono (few : items.length < 2 ^ 63) (inside : List.Forall₂ Domain.Inside items items')
    (ranges : List.Forall₂ RangeInside counts counts') {out : Filtered} (succeeds : f.filter items counts = .ok out) :
    (∃ out', f.filter items' counts' = .ok out' ∧ List.Forall₂ Domain.Inside out.items out'.items ∧
        List.Forall₂ RangeInside out.counts out'.counts) ∨
      ∃ failure, f.filter items' counts' = .error failure ∧ ¬ failure.Infeasible := by
  obtain ⟨exact, bins, feasible⟩ := exact_of_filter few succeeds
  rcases filter_cases_of_feasible (inside.length_eq ▸ few)
    (feasible.mono (inside.imp fun _ _ => Domain.Inside.subset) ranges) with
    ⟨out', same, exact'⟩ | same | same
  · exact .inl ⟨out', same, exact.mono exact' inside ranges⟩
  · exact .inr ⟨_, same, by simp [Failure.Infeasible, Error.kind]⟩
  · exact .inr ⟨_, same, id⟩

end BinCountFilter

/-! ## Constraints -/

namespace BinCount

variable {c : BinCount} {small big : Variables}

theorem follows_filtered (few : c.items.length < 2 ^ 63) (inside : small.Inside big) :
    Follows small big c.filtered c.filtered fun out out' =>
      List.Forall₂ Domain.Inside out.items out'.items ∧ List.Forall₂ RangeInside out.counts out'.counts := by
  have same (vs : List Var) : List.Forall₂ (fun v w : Var => v = w) vs vs := List.forall₂_same.2 fun _ _ => rfl
  have readItem (v w : Var) (small big : Variables) (inside : small.Inside big) (same : v = w) :
      Follows small big (do return (← Variables.fetch v).domain) (do return (← Variables.fetch w).domain)
        Domain.Inside := by
    subst same
    exact (follows_fetch v inside).bind fun _ _ _ _ inside both => .pure inside both.1
  have readCount (v w : Var) (small big : Variables) (inside : small.Inside big) (same : v = w) :
      Follows small big (c.readRange v) (c.readRange w) RangeInside := by
    subst same
    refine (follows_fetch v inside).bind fun x y _ _ inside both => ?_
    cases read : countRangeOf c.items.length x.domain with
    | none => trivial
    | some range =>
        obtain ⟨range', read', within⟩ := countRangeOf_mono few both.1 both.2 read
        rw [read']
        exact .pure inside within
  refine (Follows.mapM (same c.items) readItem inside).bind fun domains domains' _ _ inside ⟨within, length⟩ => ?_
  refine (Follows.mapM (same c.counts) readCount inside).bind fun ranges ranges' _ _ inside ⟨wider, _⟩ => ?_
  cases succeeds : c.filter.filter domains ranges with
  | error failure => trivial
  | ok out =>
      rcases BinCountFilter.filter_mono (length ▸ few) within wider succeeds with
        ⟨out', same, both⟩ | ⟨failure, same, feasible⟩
      · rw [same]
        exact .pure inside both
      · rw [same]
        exact feasible

theorem follows (c : BinCount) (few : c.items.length < 2 ^ 63) (inside : small.Inside big) :
    Follows small big c.propagate c.propagate fun _ _ => True := by
  refine (follows_filtered few inside).bind fun out out' _ _ inside ⟨items, counts⟩ => ?_
  refine (Follows.forM (forall₂_zip c.items items) (fun ⟨v, d⟩ ⟨w, e⟩ _ _ inside both => ?_) inside).bind
    fun _ _ _ _ inside _ =>
      .forM (forall₂_zip c.counts counts) (fun ⟨v, range⟩ ⟨w, range'⟩ _ _ inside both => ?_) inside
  · obtain ⟨rfl, within⟩ := both
    exact ((narrows_restrict v within.proper.1).follows (narrows_restrict v within.proper.2)
      (fun _ obeys => obeys.mono within) inside).discard
  · obtain ⟨rfl, lower, upper⟩ := both
    exact (follows_narrow v (Interval.within_ofBounds (by exact_mod_cast lower) (by exact_mod_cast upper))
      inside).discard

end BinCount

end StatBounds
