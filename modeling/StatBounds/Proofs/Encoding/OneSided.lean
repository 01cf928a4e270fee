import StatBounds.Proofs.Encoding.Histograms
import StatBounds.Proofs.Encoding.Lockstep
import StatBounds.Proofs.Propagation.FixedPoint
import StatBounds.Proofs.Propagation.Runs
import StatBounds.Proofs.Propagation.SettledConjunctions
import StatBounds.Proofs.Store.Shrinking

/-! # Items on one side of a bin

An integer variable that does not have values on both sides of a bin decides one of the two inequalities for the bin.
The other one says of each of its values what the interval says. Variables never get values back, so propagations over
histograms of both kinds then do the same step by step, whatever the other constraints do.
-/

namespace StatBounds

open Binary64 (value ofInt)

variable {vars : Variables} {v z : Var} {x : Variable} {s : IntSet} {bin : Bin}

namespace Variables

/-- The variable has values below a bin and values above it. -/
def Straddles (vars : Variables) (v : Var) (bin : Bin) : Prop :=
  (∃ n, vars.CanBe v n ∧ ofInt n < bin.lb) ∧ ∃ n, vars.CanBe v n ∧ bin.ub ≤ ofInt n

/-- The variable has values in a bin. -/
def Enters (vars : Variables) (v : Var) (bin : Bin) : Prop :=
  ∃ n, vars.CanBe v n ∧ bin.Has (value (ofInt n))

end Variables

def membershipConstraint (kind : SeriesKind) (z v : Var) (bin : Bin) : Constraint :=
  .reified { indicator := z, atoms := kind.membership v bin }

theorem Truth.eq_of_iff {s t : Truth} (yes : s = .yes ↔ t = .yes) (no : s = .no ↔ t = .no) : s = t := by
  cases s <;> cases t <;> simp_all

/-! ## What is known of the tests -/

namespace Bin

theorem has_ofInt_iff {n : Int} : bin.Has (value (ofInt n)) ↔ bin.lb ≤ ofInt n ∧ ofInt n < bin.ub := by
  rw [← contains_iff (Binary64.isNumber_ofInt n), contains, Bool.and_eq_true, decide_eq_true_eq, decide_eq_true_eq]

section

variable (has : vars.HasValues v)

include has

theorem lower_yes_iff :
    (Atom.atLeast v bin.lb).truthIn vars = .yes ↔ ∀ n, vars.CanBe v n → bin.lb ≤ ofInt n := by
  refine (Atom.truthIn_eq_yes_iff (a := .atLeast v bin.lb) has).trans ?_
  simp only [Atom.Holds, Atom.var, Binary64.le_iff, Binary64.isNumber_ofInt, true_and]

theorem lower_no_iff :
    (Atom.atLeast v bin.lb).truthIn vars = .no ↔ ∀ n, vars.CanBe v n → ¬ bin.lb ≤ ofInt n := by
  refine (Atom.truthIn_eq_no_iff (a := .atLeast v bin.lb) has).trans ?_
  simp only [Atom.Holds, Atom.var, Binary64.le_iff, Binary64.isNumber_ofInt, true_and]

theorem upper_yes_iff :
    (Atom.below v bin.ub).truthIn vars = .yes ↔ ∀ n, vars.CanBe v n → ofInt n < bin.ub := by
  refine (Atom.truthIn_eq_yes_iff (a := .below v bin.ub) has).trans ?_
  simp only [Atom.Holds, Atom.var, Binary64.lt_iff, Binary64.isNumber_ofInt, true_and]

theorem upper_no_iff :
    (Atom.below v bin.ub).truthIn vars = .no ↔ ∀ n, vars.CanBe v n → ¬ ofInt n < bin.ub := by
  refine (Atom.truthIn_eq_no_iff (a := .below v bin.ub) has).trans ?_
  simp only [Atom.Holds, Atom.var, Binary64.lt_iff, Binary64.isNumber_ofInt, true_and]

theorem within_yes_iff : (Atom.within v bin.lb bin.ub).truthIn vars = .yes ↔
    ∀ n, vars.CanBe v n → bin.lb ≤ ofInt n ∧ ofInt n < bin.ub := by
  refine (Atom.truthIn_eq_yes_iff (a := .within v bin.lb bin.ub) has).trans ?_
  simp only [Atom.Holds, Atom.var, Binary64.le_iff, Binary64.lt_iff, Binary64.isNumber_ofInt, true_and]

theorem within_no_iff : (Atom.within v bin.lb bin.ub).truthIn vars = .no ↔ ¬ vars.Enters v bin := by
  refine (Atom.truthIn_eq_no_iff (a := .within v bin.lb bin.ub) has).trans ?_
  simp only [Atom.Holds, Atom.var, Variables.Enters, has_ofInt_iff, Binary64.le_iff, Binary64.lt_iff,
    Binary64.isNumber_ofInt, true_and, not_exists, not_and]

theorem within_of_lower_yes (yes : (Atom.atLeast v bin.lb).truthIn vars = .yes) :
    (Atom.within v bin.lb bin.ub).truthIn vars = (Atom.below v bin.ub).truthIn vars := by
  rw [lower_yes_iff has] at yes
  refine Truth.eq_of_iff ?_ ?_
  · rw [within_yes_iff has, upper_yes_iff has]
    exact forall₂_congr fun n canBe => and_iff_right (yes n canBe)
  · simp only [within_no_iff has, upper_no_iff has, Variables.Enters, has_ofInt_iff, not_exists, not_and]
    exact forall₂_congr fun n canBe => ⟨fun outside => outside (yes n canBe), fun above _ => above⟩

theorem within_of_upper_yes (yes : (Atom.below v bin.ub).truthIn vars = .yes) :
    (Atom.within v bin.lb bin.ub).truthIn vars = (Atom.atLeast v bin.lb).truthIn vars := by
  rw [upper_yes_iff has] at yes
  refine Truth.eq_of_iff ?_ ?_
  · rw [within_yes_iff has, lower_yes_iff has]
    exact forall₂_congr fun n canBe => and_iff_left (yes n canBe)
  · simp only [within_no_iff has, lower_no_iff has, Variables.Enters, has_ofInt_iff, not_exists, not_and]
    exact forall₂_congr fun n canBe => ⟨fun outside above => outside above (yes n canBe), fun below above =>
      absurd above below⟩

theorem within_of_no (no : (Atom.atLeast v bin.lb).truthIn vars = .no ∨ (Atom.below v bin.ub).truthIn vars = .no) :
    (Atom.within v bin.lb bin.ub).truthIn vars = .no := by
  rw [within_no_iff has]
  rintro ⟨n, canBe, inside⟩
  rw [has_ofInt_iff] at inside
  rcases no with no | no
  · exact (lower_no_iff has).1 no n canBe inside.1
  · exact (upper_no_iff has).1 no n canBe inside.2

/-- Where both inequalities are open, there are values on both sides of the bin. -/
theorem straddles_of_unknown (lower : (Atom.atLeast v bin.lb).truthIn vars = .unknown)
    (upper : (Atom.below v bin.ub).truthIn vars = .unknown) : vars.Straddles v bin := by
  have lowerOpen : (Atom.atLeast v bin.lb).truthIn vars ≠ .yes ∧ (Atom.atLeast v bin.lb).truthIn vars ≠ .no := by
    simp [lower]
  have upperOpen : (Atom.below v bin.ub).truthIn vars ≠ .yes ∧ (Atom.below v bin.ub).truthIn vars ≠ .no := by
    simp [upper]
  simp only [Ne, lower_yes_iff has, lower_no_iff has, not_forall, not_not, exists_prop] at lowerOpen
  simp only [Ne, upper_yes_iff has, upper_no_iff has, not_forall, not_not, exists_prop] at upperOpen
  -- The values for which the inequalities hold show that the bounds are numbers.
  obtain ⟨⟨n, canBe, below⟩, m, -, holds⟩ := lowerOpen
  obtain ⟨⟨n', canBe', above⟩, m', -, holds'⟩ := upperOpen
  have number := (Binary64.le_iff.1 holds).1
  have number' := (Binary64.lt_iff.1 holds').2.1
  rw [Binary64.le_iff, not_and, not_and, not_le] at below
  rw [Binary64.lt_iff, not_and, not_and, not_lt] at above
  have isNumber := Binary64.isNumber_ofInt
  exact ⟨⟨n, canBe, Binary64.lt_iff.2 ⟨isNumber n, number, below number (isNumber n)⟩⟩,
    n', canBe', Binary64.le_iff.2 ⟨number', isNumber n', above (isNumber n') number'⟩⟩

theorem within_ne_yes (lower : (Atom.atLeast v bin.lb).truthIn vars = .unknown) :
    (Atom.within v bin.lb bin.ub).truthIn vars ≠ .yes := by
  intro yes
  have notLower : (Atom.atLeast v bin.lb).truthIn vars ≠ .yes := by simp [lower]
  rw [within_yes_iff has] at yes
  exact notLower ((lower_yes_iff has).2 fun n canBe => (yes n canBe).1)

end

end Bin

/-! ## Tests that say the same of all values -/

theorem retain_congr {keep keep' : Int → Bool} (found : vars.get? v = some x) (domain : x.domain = .finite s)
    (same : ∀ n ∈ s.values, keep n = keep' n) : Variables.retain v keep vars = Variables.retain v keep' vars := by
  have all : s.values.all keep = s.values.all keep' := by
    rw [Bool.eq_iff_iff, List.all_eq_true, List.all_eq_true]
    exact forall₂_congr fun n member => by rw [same n member]
  have left : s.filter keep = s.filter keep' := by
    simp only [IntSet.filter, List.filter_congr same]
  rw [retain_eq found domain, retain_eq found domain, all, left]

theorem discard_congr {α : Type} {first second : NarrowM α} (same : first vars = second vars) :
    discard first vars = discard second vars := by
  change (first >>= fun _ => pure PUnit.unit) vars = (second >>= fun _ => pure PUnit.unit) vars
  simp only [Bind.bind, EStateM.bind, same]

namespace Atom

variable {a b : Atom}

theorem enforce_finite (found : vars.get? a.var = some x) (domain : x.domain = .finite s) :
    a.enforce vars = discard (Variables.retain a.var fun n => a.holds (ofInt n)) vars := by
  simp only [enforce, fetch_bind found, domain]

theorem refute_finite (found : vars.get? a.var = some x) (domain : x.domain = .finite s) :
    a.refute vars = discard (Variables.retain a.var fun n => !a.holds (ofInt n)) vars := by
  simp only [refute, fetch_bind found, domain]

/-- Enforcing a test that all values pass changes nothing. -/
theorem enforce_of_all (found : vars.get? a.var = some x) (domain : x.domain = .finite s)
    (all : ∀ n ∈ s.values, a.holds (ofInt n) = true) : a.enforce vars = .ok ⟨⟩ vars := by
  have kept : Variables.retain a.var (fun n => a.holds (ofInt n)) vars = .ok false vars := by
    rw [retain_eq found domain, if_pos (List.all_eq_true.2 all)]
  rw [enforce_finite found domain]
  have unchanged : discard (pure false : NarrowM Bool) vars = .ok ⟨⟩ vars := rfl
  exact (discard_congr kept).trans unchanged

variable (tested : b.var = a.var) (found : vars.get? a.var = some x) (domain : x.domain = .finite s)

include tested found domain

theorem enforce_congr (same : ∀ n ∈ s.values, a.holds (ofInt n) = b.holds (ofInt n)) :
    a.enforce vars = b.enforce vars := by
  rw [enforce_finite found domain, enforce_finite (tested.symm ▸ found) domain, tested]
  exact discard_congr (retain_congr found domain same)

theorem refute_congr (same : ∀ n ∈ s.values, a.holds (ofInt n) = b.holds (ofInt n)) :
    a.refute vars = b.refute vars := by
  rw [refute_finite found domain, refute_finite (tested.symm ▸ found) domain, tested]
  exact discard_congr (retain_congr found domain fun n member => congrArg (!·) (same n member))

end Atom

/-! ## Memberships of items on one side -/

theorem Variables.Shrunk.finite {before after : Variables} (shrunk : before.Shrunk after) (found : before.get? v = some x)
    (domain : x.domain = .finite s) :
    ∃ y t, after.get? v = some y ∧ y.domain = .finite t ∧ ∀ n ∈ t.values, n ∈ s.values := by
  obtain ⟨y, there, -, inside⟩ := shrunk v x found
  rw [domain] at inside
  cases domain' : y.domain with
  | real r => simp [domain', Domain.Inside] at inside
  | finite t => exact ⟨y, t, there, domain', by simpa [domain', Domain.Inside] using inside⟩

/-- Both kinds leave one test open, which says the same in both. -/
theorem respond_kinds_of_open {last : Atom} (within : (Atom.within v bin.lb bin.ub).truthIn vars = .unknown)
    (noNo : ∀ a ∈ SeriesKind.discrete.membership v bin, a.truthIn vars ≠ .no)
    (only : (SeriesKind.discrete.membership v bin).filter (fun a => a.truthIn vars == .unknown) = [last])
    (both : ((Atom.atLeast v bin.lb).enforce >>= fun _ => (Atom.below v bin.ub).enforce) vars =
      (Atom.within v bin.lb bin.ub).enforce vars)
    (refuted : last.refute vars = (Atom.within v bin.lb bin.ub).refute vars) :
    Reified.respond { indicator := z, atoms := SeriesKind.discrete.membership v bin } vars vars =
      Reified.respond { indicator := z, atoms := SeriesKind.continuous.membership v bin } vars vars := by
  have isOpen : last ∈ (SeriesKind.discrete.membership v bin).filter fun a => a.truthIn vars == .unknown := by
    rw [only]
    exact List.mem_singleton_self last
  rw [List.mem_filter, beq_iff_eq] at isOpen
  rw [Reified.respond_of_open noNo isOpen.1 (by simp [isOpen.2]),
    Reified.respond_of_open (a := .within v bin.lb bin.ub) (by simp [SeriesKind.membership, within])
      (by simp [SeriesKind.membership]) (by simp [within]), only]
  split_ifs
  · simpa [SeriesKind.membership] using both
  · simpa [SeriesKind.membership, within] using refuted
  · rfl

section

variable (found : vars.get? v = some x) (domain : x.domain = .finite s)

include found domain

theorem enforce_both_of_lower (all : ∀ n ∈ s.values, bin.lb ≤ ofInt n) :
    ((Atom.atLeast v bin.lb).enforce >>= fun _ => (Atom.below v bin.ub).enforce) vars =
      (Atom.within v bin.lb bin.ub).enforce vars := by
  have passes : (Atom.atLeast v bin.lb).enforce vars = .ok ⟨⟩ vars :=
    Atom.enforce_of_all found domain fun n member => decide_eq_true (all n member)
  simp only [Bind.bind, EStateM.bind, passes]
  exact Atom.enforce_congr rfl found domain fun n member => by simp [Atom.holds, all n member]

/-- What the first inequality leaves still passes the second one. -/
theorem enforce_both_of_upper (sound : vars.Sound) (all : ∀ n ∈ s.values, ofInt n < bin.ub) :
    ((Atom.atLeast v bin.lb).enforce >>= fun _ => (Atom.below v bin.ub).enforce) vars =
      (Atom.within v bin.lb bin.ub).enforce vars := by
  have same : (Atom.atLeast v bin.lb).enforce vars = (Atom.within v bin.lb bin.ub).enforce vars :=
    Atom.enforce_congr rfl found domain fun n member => by simp [Atom.holds, all n member]
  have isLocal : Local (fun _ => True) (Atom.atLeast v bin.lb).enforce := .enforce trivial
  have shrunk := isLocal.narrowing.shrunk vars sound
  rw [← same]
  simp only [Bind.bind, EStateM.bind]
  cases ran : (Atom.atLeast v bin.lb).enforce vars with
  | error failure after => rfl
  | ok _ after =>
      rw [Ensures, ran] at shrunk
      obtain ⟨y, t, there, domain', part⟩ := shrunk.finite found domain
      exact Atom.enforce_of_all there domain' fun n member => decide_eq_true (all n (part n member))

/-- An indicator responds alike to both kinds of tests of an item on one side of the bin. -/
theorem respond_kinds (sound : vars.Sound) (apart : ¬ vars.Straddles v bin) :
    Reified.respond { indicator := z, atoms := SeriesKind.discrete.membership v bin } vars vars =
      Reified.respond { indicator := z, atoms := SeriesKind.continuous.membership v bin } vars vars := by
  have canBe {n : Int} (member : n ∈ s.values) : vars.CanBe v n := ⟨x, s, found, domain, member⟩
  by_cases has : vars.HasValues v
  · cases lower : (Atom.atLeast v bin.lb).truthIn vars with
    | no => simp [Reified.respond, SeriesKind.membership, lower, Bin.within_of_no has (.inl lower)]
    | yes =>
        have within := Bin.within_of_lower_yes has lower
        have all (n : Int) (member : n ∈ s.values) := (Bin.lower_yes_iff has).1 lower n (canBe member)
        cases upper : (Atom.below v bin.ub).truthIn vars with
        | no | yes => simp [Reified.respond, SeriesKind.membership, lower, upper, within]
        | unknown =>
            have refuted : (Atom.below v bin.ub).refute vars = (Atom.within v bin.lb bin.ub).refute vars :=
              Atom.refute_congr rfl found domain fun n member => by simp [Atom.holds, all n member]
            refine respond_kinds_of_open (within.trans upper) ?_ ?_ (enforce_both_of_lower found domain all) refuted
            · simp [SeriesKind.membership, lower, upper]
            · simp [SeriesKind.membership, lower, upper]
    | unknown =>
        cases upper : (Atom.below v bin.ub).truthIn vars with
        | no => simp [Reified.respond, SeriesKind.membership, lower, upper, Bin.within_of_no has (.inr upper)]
        | yes =>
            have all (n : Int) (member : n ∈ s.values) := (Bin.upper_yes_iff has).1 upper n (canBe member)
            have within := Bin.within_of_upper_yes has upper
            have refuted : (Atom.atLeast v bin.lb).refute vars = (Atom.within v bin.lb bin.ub).refute vars :=
              Atom.refute_congr rfl found domain fun n member => by simp [Atom.holds, all n member]
            refine respond_kinds_of_open (within.trans lower) ?_ ?_ (enforce_both_of_upper found domain sound all) refuted
            · simp [SeriesKind.membership, lower, upper]
            · simp [SeriesKind.membership, lower, upper]
        | unknown => exact absurd (Bin.straddles_of_unknown has lower upper) apart
  · -- No value fails a test.
    have yes (kind : SeriesKind) (a : Atom) (member : a ∈ kind.membership v bin) : a.truthIn vars = .yes := by
      have none : s.values = [] := List.eq_nil_iff_forall_not_mem.2 fun n member => has (canBe member).hasValues
      simp [Atom.truthIn, SeriesKind.var_of_mem_membership member, found, domain, Atom.truth, none]
    rw [Reified.respond_of_yes (yes .discrete), Reified.respond_of_yes (yes .continuous)]

theorem invoke_kinds (sound : vars.Sound) (known : vars.contains z = true) (apart : ¬ vars.Straddles v bin) :
    (membershipConstraint .discrete z v bin).invoke vars = (membershipConstraint .continuous z v bin).invoke vars := by
  have known' : vars.contains v = true := decide_eq_true (Array.getElem?_eq_some_iff.1 found).1
  have exist (kind : SeriesKind) :
      ∀ w ∈ Reified.scope { indicator := z, atoms := kind.membership v bin }, vars.contains w = true := by
    intro w member
    rcases List.mem_append.1 member with tested | indicator
    · obtain ⟨a, inAtoms, rfl⟩ := List.mem_map.1 tested
      rwa [SeriesKind.var_of_mem_membership inAtoms]
    · rwa [List.mem_singleton.1 indicator]
  simp only [membershipConstraint, Constraint.invoke, Reified.propagate_eq_respond (exist _),
    respond_kinds found domain sound apart]

end

/-! ## Histograms of both kinds -/

theorem Variables.Shrunk.straddles {before after : Variables} (shrunk : before.Shrunk after)
    (found : before.get? v = some x) (domain : x.domain = .finite s) (straddles : after.Straddles v bin) :
    before.Straddles v bin := by
  obtain ⟨y, t, there, domain', part⟩ := shrunk.finite found domain
  have canBe {n : Int} (left : after.CanBe v n) : before.CanBe v n :=
    ⟨x, s, found, domain, part n ((canBe_iff there domain').1 left)⟩
  obtain ⟨⟨n, left, below⟩, m, left', above⟩ := straddles
  exact ⟨⟨n, canBe left, below⟩, m, canBe left', above⟩

/-- Items that were on one side of a bin stay there. -/
theorem Variables.Shrunk.actAlike {before after : Variables} (shrunk : before.Shrunk after)
    (found : before.get? v = some x) (domain : x.domain = .finite s) (sound : after.Sound)
    (known : before.contains z = true) (apart : ¬ before.Straddles v bin) : Propagation.ActAlike after
      (membershipConstraint .discrete z v bin) (membershipConstraint .continuous z v bin) := by
  obtain ⟨y, t, there, domain', -⟩ := shrunk.finite found domain
  have inside : z.index < before.arena.size := of_decide_eq_true known
  obtain ⟨u, there', -⟩ := shrunk z _ (Array.getElem?_eq_getElem inside)
  have known' : after.contains z = true := decide_eq_true (Array.getElem?_eq_some_iff.1 there').1
  have invoked := invoke_kinds there domain' sound known' fun straddles =>
    apart (shrunk.straddles found domain straddles)
  exact ⟨invoked.symm, .inr rfl⟩

namespace Store

variable {kind kind' : SeriesKind} {name : String} {series counts : List Var} {bins : List Bin}
  {store one other : Store}

/-- Histograms of both kinds have the same constraints in the same order, up to the tests of the membership in the
    bins. -/
theorem forall₂_histogramConstraints {R : Constraint → Constraint → Prop} {first : Nat} (same : ∀ c, R c c)
    (memberships : ∀ i v b bin, series[i]? = some v → bins[b]? = some bin →
      R (membershipConstraint kind (gridVar first bins.length i b) v bin)
        (membershipConstraint kind' (gridVar first bins.length i b) v bin)) :
    List.Forall₂ R (histogramConstraints kind first series bins counts)
      (histogramConstraints kind' first series bins counts) := by
  have row (item : Var × Nat) (member : item ∈ series.zipIdx) :
      List.Forall₂ R (histogramRow kind first bins item) (histogramRow kind' first bins item) := by
    refine List.rel_append ?_ (List.forall₂_same.2 fun c _ => same c)
    rw [List.forall₂_map_left_iff, List.forall₂_map_right_iff, List.forall₂_same]
    exact fun bin member' => memberships _ _ _ _ (List.mem_zipIdx_iff_getElem?.1 member)
      (List.mem_zipIdx_iff_getElem?.1 member')
  refine List.rel_append ?_ (List.forall₂_same.2 fun c _ => same c)
  refine List.rel_flatMap (R := fun item item' => item = item' ∧ item ∈ series.zipIdx) ?_ ?_
  · exact List.forall₂_same.2 fun item member => ⟨rfl, member⟩
  · rintro item _ ⟨rfl, member⟩
    exact row item member

/-- With all items on one side of all bins, a propagation goes on alike after histograms of both kinds, whatever the
    other constraints are. -/
theorem propagation_kinds (consistent : one.Consistent) (twin : one.Twin other)
    (integers : ∀ v ∈ series, ∀ x, store.vars.get? v = some x → x.domain.isFinite = true)
    (apart : ∀ v ∈ series, ∀ bin ∈ bins, ¬ store.vars.Straddles v bin)
    (ran : encodeHistogram .discrete name series bins counts store = .ok () one)
    (ran' : encodeHistogram .continuous name series bins counts store = .ok () other) :
    other.propagation = one.propagation := by
  let kept (before : Variables) : Prop := before.Sound ∧ one.vars.Shrunk before
  have encodes := encodes_encodeHistogram ran
  have finite : store.vars.FiniteOn (· ∈ series) := fun v x isItem => integers v isItem x
  have membership (i : Nat) (v : Var) (b : Nat) (bin : Bin) (item : series[i]? = some v) (listed : bins[b]? = some bin)
      (before : Variables) (still : kept before) : Propagation.ActAlike before
        (membershipConstraint .discrete (gridVar store.vars.size bins.length i b) v bin)
        (membershipConstraint .continuous (gridVar store.vars.size bins.length i b) v bin) := by
    have isItem : v ∈ series := List.mem_of_getElem? item
    have known := (extends_encodeHistogram ran).2.2.1 v isItem
    have same : one.vars.get? v = store.vars.get? v := encodes.extended.get?_old (of_decide_eq_true known)
    have beside : ¬ one.vars.Straddles v bin := by
      simpa only [Variables.Straddles, Variables.CanBe, same] using apart v isItem bin (List.mem_of_getElem? listed)
    obtain ⟨x, found⟩ := get?_of_contains known
    rw [← same] at found
    obtain ⟨s, domain⟩ := finite.domain isItem (same ▸ found)
    have posted : membershipConstraint .discrete (gridVar store.vars.size bins.length i b) v bin ∈ one.constraints := by
      rw [← Array.mem_toList_iff, encodes.extended.constraints]
      exact List.mem_append_right _ (mem_histogramConstraints_iff.2 (.inl ⟨i, v, b, bin, item, listed, rfl⟩))
    have indicator := consistent.scope _ posted _ (List.mem_append_right _ (List.mem_singleton_self _))
    exact still.2.actAlike found domain still.1 indicator beside
  have alike : List.Forall₂ (fun c c' => ∀ before, kept before → Propagation.ActAlike before c c')
      one.constraints.toList other.constraints.toList := by
    rw [encodes.extended.constraints, (encodes_encodeHistogram ran').extended.constraints]
    refine List.rel_append (List.forall₂_same.2 fun c _ before _ => ⟨rfl, .inl rfl⟩) ?_
    exact forall₂_histogramConstraints (fun c before _ => ⟨rfl, .inl rfl⟩) membership
  unfold propagation
  rw [← twin.vars, ← twin.watchers, ← twin.config, ← twin.constraints]
  refine Propagation.run_congr alike (fun c member before still => ?_) _ _ _ _ _ ⟨?_, ?_⟩
  · exact (c.shrunk_further still.1 still.2).mono (fun _ _ => id) fun _ _ _ => trivial
  · exact consistent.sound
  · exact .refl consistent.sound

end Store

end StatBounds
