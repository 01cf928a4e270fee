import StatBounds.Proofs.Encoding.Histograms
import StatBounds.Proofs.Encoding.Lockstep
import StatBounds.Proofs.Encoding.OneSided
import StatBounds.Proofs.Propagation.Confluence
import StatBounds.Proofs.Propagation.SettledConjunctions

/-! # One test or two

The membership in a bin is tested by one interval, or by two inequalities. Both say the same of a single value. But an
integer variable with values on both sides of a bin leaves both inequalities open, whatever values it has in the bin
itself. So a propagation with the interval prunes all that one with the inequalities does, and more just there.
-/

namespace StatBounds

open Binary64 (value ofInt)

variable {vars : Variables} {v z : Var} {bin : Bin}

/-! ## Settled memberships -/

section

variable (known : vars.contains v = true) (known' : vars.contains z = true) (isTruth : vars.IsTruth z)
  (has : vars.HasValues v)

include known known' isTruth has

theorem settled_continuous_iff : (membershipConstraint .continuous z v bin).Settled vars ↔
    if (Atom.within v bin.lb bin.ub).truthIn vars = .no then vars.CanBe z 0 ∧ ¬ vars.CanBe z 1
    else if (Atom.within v bin.lb bin.ub).truthIn vars = .yes then ¬ vars.CanBe z 0 ∧ vars.CanBe z 1
    else vars.CanBe z 0 ∧ vars.CanBe z 1 := by
  refine (Reified.settled_iff (c := { indicator := z, atoms := SeriesKind.continuous.membership v bin })
    ?_ isTruth ?_).trans ?_
  · simp [SeriesKind.membership, Reified.scope, Atom.var, known, known']
  · simpa [SeriesKind.membership, Atom.var] using has
  · cases truth : (Atom.within v bin.lb bin.ub).truthIn vars <;> simp [SeriesKind.membership, truth]

theorem settled_discrete_iff : (membershipConstraint .discrete z v bin).Settled vars ↔
    if (Atom.atLeast v bin.lb).truthIn vars = .no ∨ (Atom.below v bin.ub).truthIn vars = .no then
      vars.CanBe z 0 ∧ ¬ vars.CanBe z 1
    else if (Atom.atLeast v bin.lb).truthIn vars = .yes ∧ (Atom.below v bin.ub).truthIn vars = .yes then
      ¬ vars.CanBe z 0 ∧ vars.CanBe z 1
    else vars.CanBe z 0 ∧ (vars.CanBe z 1 ∨
      (Atom.atLeast v bin.lb).truthIn vars = .unknown ∧ (Atom.below v bin.ub).truthIn vars = .unknown) := by
  refine (Reified.settled_iff (c := { indicator := z, atoms := SeriesKind.discrete.membership v bin })
    ?_ isTruth ?_).trans ?_
  · simp [SeriesKind.membership, Reified.scope, Atom.var, known, known']
  · simpa [SeriesKind.membership, Atom.var] using has
  · cases lower : (Atom.atLeast v bin.lb).truthIn vars <;> cases upper : (Atom.below v bin.ub).truthIn vars <;>
      simp [SeriesKind.membership, lower, upper]

/-- Where the interval has nothing left to do, the inequalities have not either. -/
theorem settled_discrete_of_continuous (settled : (membershipConstraint .continuous z v bin).Settled vars) :
    (membershipConstraint .discrete z v bin).Settled vars := by
  rw [settled_continuous_iff known known' isTruth has] at settled
  rw [settled_discrete_iff known known' isTruth has]
  cases lower : (Atom.atLeast v bin.lb).truthIn vars with
  | no =>
      rw [Bin.within_of_no has (.inl lower)] at settled
      simpa using settled
  | yes =>
      rw [Bin.within_of_lower_yes has lower] at settled
      cases upper : (Atom.below v bin.ub).truthIn vars <;> simpa [upper] using settled
  | unknown =>
      cases upper : (Atom.below v bin.ub).truthIn vars with
      | no =>
          rw [Bin.within_of_no has (.inr upper)] at settled
          simpa using settled
      | yes =>
          rw [Bin.within_of_upper_yes has upper, lower] at settled
          simpa using settled
      | unknown =>
          rw [if_neg (Bin.within_ne_yes has lower)] at settled
          have zero : vars.CanBe z 0 := by
            split_ifs at settled <;> exact settled.1
          simpa using zero

/-- The inequalities leave nothing to do for the interval, unless there are values on both sides of the bin. Then the
    indicator has to tell already whether there are values in the bin. -/
theorem settled_continuous_of_discrete (settled : (membershipConstraint .discrete z v bin).Settled vars)
    (tells : vars.Straddles v bin → (vars.Enters v bin ↔ vars.CanBe z 1)) :
    (membershipConstraint .continuous z v bin).Settled vars := by
  rw [settled_discrete_iff known known' isTruth has] at settled
  rw [settled_continuous_iff known known' isTruth has]
  cases lower : (Atom.atLeast v bin.lb).truthIn vars with
  | no =>
      rw [Bin.within_of_no has (.inl lower)]
      simpa [lower] using settled
  | yes =>
      rw [Bin.within_of_lower_yes has lower]
      cases upper : (Atom.below v bin.ub).truthIn vars <;> simpa [lower, upper] using settled
  | unknown =>
      cases upper : (Atom.below v bin.ub).truthIn vars with
      | no =>
          rw [Bin.within_of_no has (.inr upper)]
          simpa [upper] using settled
      | yes =>
          rw [Bin.within_of_upper_yes has upper, lower]
          simpa [lower, upper] using settled
      | unknown =>
          have zero : vars.CanBe z 0 := by simpa [lower, upper] using settled
          have tells := tells (Bin.straddles_of_unknown has lower upper)
          rw [if_neg (Bin.within_ne_yes has lower)]
          split_ifs with outside <;> rw [Bin.within_no_iff has] at outside
          · exact ⟨zero, fun one => outside (tells.2 one)⟩
          · exact ⟨zero, tells.1 (not_not.1 outside)⟩

end

/-! ## Histograms of both kinds -/

namespace Store

section

variable {kind kind' : SeriesKind} {name : String} {series counts : List Var} {bins : List Bin}
  {store after one other : Store}

theorem isIsotone_of_mem_histogram {first : Nat} {c : Constraint}
    (member : c ∈ histogramConstraints kind first series bins counts) : c.IsIsotone := by
  rcases mem_histogramConstraints_iff.1 member with ⟨i, v, b, bin, -, -, rfl⟩ | ⟨i, -, rfl⟩ | ⟨b, count, -, rfl⟩
  · exact .inl trivial
  · exact .inr ⟨_, _, rfl, Formula.isLinear_sumOf _ (Interval.proper_ofBounds _ _)⟩
  · exact .inl trivial

/-- A histogram of the other kind has the same constraints, except for the tests of the membership in the bins. -/
theorem mem_histogramConstraints_kind (kind' : SeriesKind) {first : Nat} {c : Constraint}
    (member : c ∈ histogramConstraints kind first series bins counts) :
    c ∈ histogramConstraints kind' first series bins counts ∨
      ∃ i v b bin, series[i]? = some v ∧ bins[b]? = some bin ∧
        c = membershipConstraint kind (gridVar first bins.length i b) v bin ∧
        membershipConstraint kind' (gridVar first bins.length i b) v bin ∈
          histogramConstraints kind' first series bins counts := by
  rcases mem_histogramConstraints_iff.1 member with
    ⟨i, v, b, bin, item, found, rfl⟩ | sum | total
  · exact .inr ⟨i, v, b, bin, item, found, rfl, mem_histogramConstraints_iff.2 (.inl ⟨i, v, b, bin, item, found, rfl⟩)⟩
  · exact .inl (mem_histogramConstraints_iff.2 (.inr (.inl sum)))
  · exact .inl (mem_histogramConstraints_iff.2 (.inr (.inr total)))

theorem mem_encodeHistogram_iff (ran : encodeHistogram kind name series bins counts store = .ok () after)
    {c : Constraint} :
    c ∈ after.constraints ↔
      c ∈ store.constraints ∨ c ∈ histogramConstraints kind store.vars.size series bins counts := by
  rw [← Array.mem_toList_iff, (encodes_encodeHistogram ran).extended.constraints, List.mem_append, Array.mem_toList_iff]

theorem isTruth_of_encodeHistogram (ran : encodeHistogram kind name series bins counts store = .ok () after)
    {i b : Nat} (item : i < series.length) (bin : b < bins.length) :
    after.vars.IsTruth (gridVar store.vars.size bins.length i b) := by
  have inside : i * bins.length + b < (histogramNames name series bins).length := by
    rw [length_histogramNames]
    calc i * bins.length + b < (i + 1) * bins.length := by rw [Nat.add_one_mul]; omega
      _ ≤ series.length * bins.length := Nat.mul_le_mul_right _ item
  have truth := (encodes_encodeHistogram ran).extended.truth_values inside
  rw [← Nat.add_assoc] at truth
  exact ⟨truth.1, truth.2⟩

/-- All constraints are isotone and look at integer variables, and every variable has values. -/
structure Isotone (store : Store) : Prop where
  constraints : ∀ c ∈ store.constraints, c.IsIsotone
  integers : ∀ c ∈ store.constraints, ∀ v ∈ c.scope, ∀ x, store.vars.get? v = some x → x.domain.isFinite = true
  values : ∀ x ∈ store.vars.arena, x.domain.isEmpty = false

theorem isotone_encodeHistogram (isotone : store.Isotone)
    (integers : ∀ v ∈ series ++ counts, ∀ x, store.vars.get? v = some x → x.domain.isFinite = true)
    (ran : encodeHistogram kind name series bins counts store = .ok () after) (consistent : store.Consistent)
    (consistent' : after.Consistent) : after.Isotone := by
  have encodes := encodes_encodeHistogram ran
  have old {v : Var} (known : store.vars.contains v = true) : after.vars.get? v = store.vars.get? v :=
    encodes.extended.get?_old (of_decide_eq_true known)
  obtain ⟨-, -, items, totals, -⟩ := extends_encodeHistogram ran
  refine ⟨fun c member => ?_, fun c member v inScope x found => ?_, fun x member => ?_⟩
  · rcases (mem_encodeHistogram_iff ran).1 member with older | newer
    · exact isotone.constraints c older
    · exact isIsotone_of_mem_histogram newer
  · rcases (mem_encodeHistogram_iff ran).1 member with older | newer
    · rw [old (consistent.scope c older v inScope)] at found
      exact isotone.integers c older v inScope x found
    · rcases encodes.scope c newer v inScope with given | new
      · have known : store.vars.contains v = true := (List.mem_append.1 given).elim (items v) (totals v)
        rw [old known] at found
        exact integers v given x found
      · have known : v.index < after.vars.size := of_decide_eq_true (consistent'.scope c member v inScope)
        obtain ⟨k, position⟩ := Nat.exists_eq_add_of_le new
        rw [encodes.extended.size, position, Nat.add_lt_add_iff_left] at known
        obtain rfl : v = ⟨store.vars.size + k⟩ := congrArg Var.mk position
        obtain ⟨y, found', finite, -⟩ := (encodes.extended.truth_values known).1
        rwa [Option.some.inj (found.symm.trans found')]
  · rw [← Array.mem_toList_iff, encodes.extended.arena, List.mem_append] at member
    rcases member with older | newer
    · exact isotone.values x (Array.mem_toList_iff.1 older)
    · obtain ⟨name, -, rfl⟩ := List.mem_map.1 newer
      rfl

theorem Isotone.builtIn (isotone : store.Isotone) : ∀ c ∈ store.constraints, c.IsBuiltIn :=
  fun c member => (isotone.constraints c member).isBuiltIn

theorem Isotone.hasValues_items (isotone : store.Isotone)
    (integers : ∀ v ∈ series, ∀ x, store.vars.get? v = some x → x.domain.isFinite = true)
    (ran : Store.encodeHistogram kind name series bins counts store = .ok () after) :
    ∀ v ∈ series, after.vars.HasValues v := by
  intro v member
  obtain ⟨-, -, items, -, extended⟩ := extends_encodeHistogram ran
  obtain ⟨x, found⟩ := get?_of_contains (items v member)
  have old : v.index < store.vars.size := of_decide_eq_true (items v member)
  exact ⟨x, (extended.get?_old old).trans found, integers v member x found,
    isotone.values x (Array.mem_of_getElem? found)⟩

/-- Where a run over one kind of histogram comes to an end, the constraints of the other kind have nothing left to do,
    if this is so of its memberships. -/
theorem settled_kind (isotone : one.Isotone) (consistent : one.Consistent)
    (ran : encodeHistogram kind name series bins counts store = .ok () one)
    (ran' : encodeHistogram kind' name series bins counts store = .ok () other)
    (values : ∀ v ∈ series, one.vars.HasValues v) (ended : one.propagation.ending = .settled)
    (each : ∀ i v b bin, series[i]? = some v → bins[b]? = some bin →
      let z := gridVar store.vars.size bins.length i b
      let vars := one.propagation.vars
      vars.contains v = true → vars.contains z = true → vars.IsTruth z → vars.HasValues v →
        (membershipConstraint kind z v bin).Settled vars → (membershipConstraint kind' z v bin).Settled vars) :
    ∀ c ∈ other.constraints, c.Settled one.propagation.vars := by
  have settled := consistent.allSettled isotone.integers isotone.builtIn ended
  have leaves := leaves_propagation isotone.builtIn ended
  have contains {v : Var} (has : one.propagation.vars.HasValues v) : one.propagation.vars.contains v = true := by
    obtain ⟨x, found, -⟩ := has
    exact contains_of_get? found
  intro c member
  rcases (mem_encodeHistogram_iff ran').1 member with older | newer
  · exact settled c ((mem_encodeHistogram_iff ran).2 (.inl older))
  · rcases mem_histogramConstraints_kind kind newer with same | ⟨i, v, b, bin, item, found, rfl, twin⟩
    · exact settled c ((mem_encodeHistogram_iff ran).2 (.inr same))
    · have truth := isTruth_of_encodeHistogram ran (List.getElem?_eq_some_iff.1 item).1
        (List.getElem?_eq_some_iff.1 found).1
      have hasIndicator := (leaves _ truth.has).1
      have hasItem := (leaves v (values v (List.mem_of_getElem? item))).1
      have isTruth : one.propagation.vars.IsTruth (gridVar store.vars.size bins.length i b) :=
        ⟨hasIndicator, fun n canBe => truth.truth n ((leaves _ truth.has).2 n canBe)⟩
      exact each i v b bin item found (contains hasItem) (contains hasIndicator) isTruth hasItem
        (settled _ ((mem_encodeHistogram_iff ran).2 (.inr twin)))

/-- Where a propagation over intervals comes to an end, so does one over inequalities, and it leaves no less. -/
theorem settles_discrete (isotone : one.Isotone) (isotone' : other.Isotone) (consistent' : other.Consistent)
    (twin : one.vars = other.vars)
    (ran : encodeHistogram .discrete name series bins counts store = .ok () one)
    (ran' : encodeHistogram .continuous name series bins counts store = .ok () other)
    (values : ∀ v ∈ series, other.vars.HasValues v) (concludes : one.propagation.Concludes)
    (ended : other.propagation.ending = .settled) :
    one.propagation.ending = .settled ∧ other.propagation.vars.Inside one.propagation.vars := by
  have start : other.vars.Inside one.vars := twin ▸ consistent'.sound.inside_self isotone'.values
  refine settles start isotone'.builtIn ?_ isotone.constraints ended concludes
  exact settled_kind isotone' consistent' ran' ran values ended fun i v b bin _ _ known known' isTruth has =>
    settled_discrete_of_continuous known known' isTruth has

/-- Where a propagation over inequalities comes to an end and leaves the intervals nothing to do, a propagation over
    these ends too, and leaves no less. -/
theorem settles_continuous (isotone : one.Isotone) (isotone' : other.Isotone) (consistent : one.Consistent)
    (twin : one.vars = other.vars)
    (ran : encodeHistogram .discrete name series bins counts store = .ok () one)
    (ran' : encodeHistogram .continuous name series bins counts store = .ok () other)
    (values : ∀ v ∈ series, one.vars.HasValues v) (concludes : other.propagation.Concludes)
    (ended : one.propagation.ending = .settled)
    (tells : ∀ i v b bin, series[i]? = some v → bins[b]? = some bin → one.propagation.vars.Straddles v bin →
      (one.propagation.vars.Enters v bin ↔
        one.propagation.vars.CanBe (gridVar store.vars.size bins.length i b) 1)) :
    other.propagation.ending = .settled ∧ one.propagation.vars.Inside other.propagation.vars := by
  have start : one.vars.Inside other.vars := twin ▸ consistent.sound.inside_self isotone.values
  refine settles start isotone.builtIn ?_ isotone'.constraints ended concludes
  exact settled_kind isotone consistent ran ran' values ended
    fun i v b bin item found known known' isTruth has settled =>
    settled_continuous_of_discrete known known' isTruth has settled (tells i v b bin item found)

/-- Runs that leave no less than each other leave the same. -/
theorem Consistent.arena_eq_of_inside (consistent : one.Consistent) (isotone : one.Isotone) (isotone' : other.Isotone)
    (twin : one.vars = other.vars) (ended : one.propagation.ending = .settled)
    (ended' : other.propagation.ending = .settled) (inside : one.propagation.vars.Inside other.propagation.vars)
    (inside' : other.propagation.vars.Inside one.propagation.vars) :
    one.propagation.vars.arena = other.propagation.vars.arena := by
  let known (v : Var) : Prop := ∀ x, one.vars.get? v = some x → x.domain.isFinite = true
  have finite : one.vars.FiniteOn known := fun v x integer found => integer x found
  have scope : ∀ c ∈ one.constraints, ∀ v ∈ c.scope, known v := isotone.integers
  have scope' : ∀ c ∈ other.constraints, ∀ v ∈ c.scope, known v :=
    fun c member v inScope x found => isotone'.integers c member v inScope x (twin ▸ found)
  obtain ⟨settling, -⟩ := consistent.settling finite scope isotone.builtIn ended
  refine inside.antisymm_on settling.finite (fun v unknown => ?_) inside'
  rw [get?_propagation finite scope isotone.builtIn ended unknown,
    get?_propagation (twin ▸ finite) scope' isotone'.builtIn ended' unknown, twin]

end

end Store

theorem IntSet.ofList_values (s : IntSet) : IntSet.ofList s.values = s := by
  have same : (ofList s.values).values = s.values :=
    (ofList s.values).increasing.eq_of_mem_iff s.increasing fun n => by simp [ofList, mem_dropRepeats]
  cases s
  simpa only [mk.injEq, ofList] using same

namespace Store

/-! ## One item in two bins -/

/-- An item over some integers, and two counts. -/
def pair (values : IntSet) : Store :=
  (fresh.extended "x" (.finite values)).ranging [("m", 0, 1), ("n", 0, 1)]

/-- A bin for 0 and a bin for 1. -/
def pairBins : List Bin :=
  [⟨0.0, 1.0⟩, ⟨1.0, 2.0⟩]

def pairStarted (kind : SeriesKind) (values : IntSet) : Store :=
  ((pair values).openBatch.extended (histogramName "h" 0 0) (.finite (.range 0 1))).posting
    (membershipConstraint kind ⟨3⟩ ⟨0⟩ ⟨0.0, 1.0⟩)

def pairEncoded (kind : SeriesKind) (values : IntSet) : Store :=
  let indicators := ((pairStarted kind values).extended (histogramName "h" 0 1) (.finite (.range 0 1))).posting
    (membershipConstraint kind ⟨4⟩ ⟨0⟩ ⟨1.0, 2.0⟩)
  let row := indicators.posting (.formula (.ofExpr (sumOf [⟨3⟩, ⟨4⟩]) (.point 1.0)))
  ((row.posting (.sum { terms := [⟨3⟩], total := ⟨1⟩ })).posting (.sum { terms := [⟨4⟩], total := ⟨2⟩ })).commit

theorem contains_pair {values : IntSet} {name : String} : (pair values).vars.names.contains name =
    ("x" == name || [("m", (0 : Int), (1 : Int)), ("n", 0, 1)].any fun entry => entry.1 == name) := by
  rw [pair, contains_ranging]
  simp [fresh, Store.extended, Variables.empty]

theorem reachable_pair {values : IntSet} (some : values.isEmpty = false) : Reachable [] (pair values) := by
  have created : newInt "x" values.values fresh = .ok ⟨0⟩ (fresh.extended "x" (.finite values)) := by
    rw [newInt, IntSet.ofList_values, if_neg (by simp [some])]
    exact (addVar_eq _ _).trans (if_neg (by simp [fresh, Variables.empty]))
  exact reachable_ranging (.succeeded reachable_fresh (.newInt "x" _) created) (by decide) (by decide)
    (by simp [fresh, Store.extended, Variables.empty])

theorem isFinite_pair {values : IntSet} {v : Var} {x : Variable} (found : (pair values).vars.get? v = some x) :
    x.domain.isFinite = true := by
  have listed : (pair values).vars.arena.toList =
      [⟨"x", .finite values⟩, ⟨"m", .finite (.range 0 1)⟩, ⟨"n", .finite (.range 0 1)⟩] := rfl
  have member : x ∈ (pair values).vars.arena.toList := Array.mem_toList_iff.2 (Array.mem_of_getElem? found)
  simp only [listed, List.mem_cons, List.not_mem_nil, or_false] at member
  obtain rfl | rfl | rfl := member <;> rfl

/-- Zero and one are not on both sides of one of the bins. -/
theorem not_straddles_pair {bin : Bin} (listed : bin ∈ pairBins) :
    ¬ (pair (.range 0 1)).vars.Straddles ⟨0⟩ bin := by
  rintro ⟨⟨n, canBe, below⟩, m, canBe', above⟩
  rw [Variables.canBe_range_iff rfl rfl] at canBe canBe'
  obtain ⟨_, _⟩ := canBe
  obtain ⟨_, _⟩ := canBe'
  rw [pairBins, List.mem_pair] at listed
  obtain rfl | rfl := listed
  · interval_cases n <;> exact absurd below (by decide +kernel)
  · interval_cases m <;> exact absurd above (by decide +kernel)

theorem encodeHistogram_pair (kind : SeriesKind) (values : IntSet) :
    encodeHistogram kind "h" [⟨0⟩] pairBins [⟨1⟩, ⟨2⟩] (pair values) = .ok () (pairEncoded kind values) := by
  have created {name : String} (bin : Bin) {store : Store} (free : store.vars.names.contains name = false)
      (known : store.vars.contains ⟨0⟩ = true) : newIndicator name (kind.membership ⟨0⟩ bin) store =
        .ok ⟨store.vars.size⟩ ((store.extended name (.finite (.range 0 1))).posting
          (membershipConstraint kind ⟨store.vars.size⟩ ⟨0⟩ bin)) :=
    newIndicator_eq free (by cases kind <;> rfl) fun a member => SeriesKind.var_of_mem_membership member ▸ known
  have first : (pair values).openBatch.vars.names.contains (histogramName "h" 0 0) = false :=
    contains_pair.trans (by decide)
  have second : (pairStarted kind values).vars.names.contains (histogramName "h" 0 1) = false := by
    refine Std.HashMap.contains_insert.trans (Bool.or_eq_false_iff.2 ⟨by decide, ?_⟩)
    exact contains_pair.trans (by decide)
  obtain ⟨_, ran, rfl⟩ : Leads (encodeHistogram kind "h" [⟨0⟩] pairBins [⟨1⟩, ⟨2⟩]) (pair values) ()
      fun after => after = pairEncoded kind values := by
    refine .check rfl ?_
    rw [if_neg (by decide)]
    refine .check (by cases kind <;> rfl) (.check rfl (.batch ?_))
    simp only [List.zipIdx, List.mapM_cons, List.mapM_nil, newHistogramRow, pure_bind, bind_assoc, pairBins]
    exact .bind (created _ first rfl) (.bind (created _ second rfl) ⟨_, rfl, rfl⟩)
  exact ran

end Store

open Store (Lockstep encodeHistogram propagate gridVar)

/-- Encoding integers in bins by intervals creates the same variables as by inequalities, and posts equally many
    constraints, or fails alike. Suppose that the other constraints are isotone and look at integers. If a propagation
    with the inequalities fails, so does one with the intervals. If both succeed, then the intervals leave the same
    domains or smaller ones. And if the inequalities leave no variable on both sides of a bin, or its indicator tells
    whether it has values in the bin, then the intervals leave the same. With all items on one side of all bins from the
    start, a propagation does not depend on the kind at all, whatever the other constraints are. -/
theorem Reachable.encodeHistogram_kinds {name : String} {series counts : List Var} {bins : List Bin} {store : Store}
    {batches : List Store} (reachable : Reachable batches store)
    (integers : ∀ v ∈ series, ∀ x, store.vars.get? v = some x → x.domain.isFinite = true) :
    Lockstep (encodeHistogram .discrete name series bins counts) (encodeHistogram .continuous name series bins counts)
      store store ∧
    (∀ one other, encodeHistogram .discrete name series bins counts store = .ok () one →
      encodeHistogram .continuous name series bins counts store = .ok () other → store.Isotone →
      (∀ v ∈ counts, ∀ x, store.vars.get? v = some x → x.domain.isFinite = true) →
      one.propagation.WithinLimits → other.propagation.WithinLimits →
      (∀ e after, propagate one = .error (.error e) after →
        ∃ e' after', propagate other = .error (.error e') after' ∧ e'.kind = .infeasible) ∧
      (∀ after after', propagate one = .ok () after → propagate other = .ok () after' →
        after'.vars.Inside after.vars) ∧
      ∀ after, propagate one = .ok () after →
        (∀ i v b bin, series[i]? = some v → bins[b]? = some bin → after.vars.Straddles v bin →
          (after.vars.Enters v bin ↔ after.vars.CanBe (gridVar store.vars.size bins.length i b) 1)) →
        ∃ after', propagate other = .ok () after' ∧ after'.vars.arena = after.vars.arena) ∧
    ∀ one other, encodeHistogram .discrete name series bins counts store = .ok () one →
      encodeHistogram .continuous name series bins counts store = .ok () other →
      (∀ v ∈ series, ∀ bin ∈ bins, ¬ store.vars.Straddles v bin) → other.propagation = one.propagation := by
  have lockstep : Lockstep (encodeHistogram .discrete name series bins counts)
      (encodeHistogram .continuous name series bins counts) store store := Store.lockstep_encodeHistogram _ _ integers
  have twins {one other : Store} (ran : encodeHistogram .discrete name series bins counts store = .ok () one)
      (ran' : encodeHistogram .continuous name series bins counts store = .ok () other) : one.Twin other := by
    simpa only [Lockstep, ran, ran', true_and] using lockstep
  refine ⟨lockstep, fun one other ran ran' isotone totals limits limits' => ?_, fun one other ran ran' apart => ?_⟩
  · have twin := twins ran ran'
    have consistent := (reachable.succeeded (.encodeHistogram _ _ _ _ _) ran).invariant.1
    have consistent' := (reachable.succeeded (.encodeHistogram _ _ _ _ _) ran').invariant.1
    have arguments : ∀ v ∈ series ++ counts, ∀ x, store.vars.get? v = some x → x.domain.isFinite = true :=
      fun v member => (List.mem_append.1 member).elim (integers v) (totals v)
    have isotones := Store.isotone_encodeHistogram isotone arguments ran reachable.invariant.1 consistent
    have isotones' := Store.isotone_encodeHistogram isotone arguments ran' reachable.invariant.1 consistent'
    have concludes := consistent.concludes isotones.builtIn limits
    have concludes' := consistent'.concludes isotones'.builtIn limits'
    have discrete (ended : other.propagation.ending = .settled) :=
      Store.settles_discrete isotones isotones' consistent' twin.vars ran ran' (isotone.hasValues_items integers ran')
        concludes ended
    refine ⟨fun e after failed => ?_, fun after after' done done' => ?_, fun after done tells => ?_⟩
    · rcases concludes' with ended | ⟨position, e', ended⟩
      · rw [Store.propagate_of_settled (discrete ended).1] at failed
        cases failed
      · exact ⟨e', _, Store.propagate_of_failed ended,
          Propagation.run_failsInfeasibly (fun c member => (isotones'.constraints c member).failsInfeasibly) _ _ _ ended⟩
    · obtain rfl := Store.afterPropagation_of_ok done
      obtain rfl := Store.afterPropagation_of_ok done'
      exact (discrete (Store.settled_of_propagate done' limits'.uncapped).1).2
    · obtain rfl := Store.afterPropagation_of_ok done
      have ended := (Store.settled_of_propagate done limits.uncapped).1
      obtain ⟨ended', inside⟩ := Store.settles_continuous isotones isotones' consistent twin.vars ran ran'
        (isotone.hasValues_items integers ran) concludes' ended tells
      exact ⟨_, Store.propagate_of_settled ended',
        (consistent.arena_eq_of_inside isotones isotones' twin.vars ended ended' inside (discrete ended').2).symm⟩
  · have consistent := (reachable.succeeded (.encodeHistogram _ _ _ _ _) ran).invariant.1
    exact Store.propagation_kinds consistent (twins ran ran') integers apart ran ran'

/-- An item that can be on both sides of the second bin, and in it. And one that cannot be on both sides of a bin. -/
theorem encodeHistogram_kinds_of_range : (∃ one other after after' : Store, Reachable [] (Store.pair (.range 0 2)) ∧
    encodeHistogram .discrete "h" [⟨0⟩] Store.pairBins [⟨1⟩, ⟨2⟩] (Store.pair (.range 0 2)) = .ok () one ∧
    encodeHistogram .continuous "h" [⟨0⟩] Store.pairBins [⟨1⟩, ⟨2⟩] (Store.pair (.range 0 2)) = .ok () other ∧
    propagate one = .ok () after ∧ after.vars.Straddles ⟨0⟩ ⟨1.0, 2.0⟩ ∧
    propagate other = .ok () after' ∧ after'.vars.arena = after.vars.arena) ∧
    ∃ one other : Store, Reachable [] (Store.pair (.range 0 1)) ∧
      encodeHistogram .discrete "h" [⟨0⟩] Store.pairBins [⟨1⟩, ⟨2⟩] (Store.pair (.range 0 1)) = .ok () one ∧
      encodeHistogram .continuous "h" [⟨0⟩] Store.pairBins [⟨1⟩, ⟨2⟩] (Store.pair (.range 0 1)) = .ok () other ∧
      one.propagation.ending = .settled ∧ other.propagation = one.propagation := by
  have reachable : Reachable [] (Store.pair (.range 0 2)) := Store.reachable_pair rfl
  let one := Store.pairEncoded .discrete (.range 0 2)
  let other := Store.pairEncoded .continuous (.range 0 2)
  have ended : one.propagation.ending = .settled := by decide +kernel
  have ended' : other.propagation.ending = .settled := by decide +kernel
  have item : (one.propagation.vars.get? ⟨0⟩).map Variable.domain = some (.finite (.range 0 2)) := by decide +kernel
  have first : (one.propagation.vars.get? ⟨3⟩).map Variable.domain = some (.finite (.range 0 1)) := by decide +kernel
  have second : (one.propagation.vars.get? ⟨4⟩).map Variable.domain = some (.finite (.range 0 1)) := by decide +kernel
  have canBe {v : Var} {s : IntSet} {n : Int}
      (found : (one.propagation.vars.get? v).map Variable.domain = some (.finite s)) (member : n ∈ s.values) :
      one.propagation.vars.CanBe v n := by
    obtain ⟨x, found, domain⟩ := Option.map_eq_some_iff.1 found
    exact ⟨x, s, found, domain, member⟩
  have straddles : one.propagation.vars.Straddles ⟨0⟩ ⟨1.0, 2.0⟩ :=
    ⟨⟨0, canBe item (by decide), by decide +kernel⟩, 2, canBe item (by decide), by decide +kernel⟩
  have entersFirst : one.propagation.vars.Enters ⟨0⟩ ⟨0.0, 1.0⟩ :=
    ⟨0, canBe item (by decide), Bin.has_ofInt_iff.2 (by decide +kernel)⟩
  have entersSecond : one.propagation.vars.Enters ⟨0⟩ ⟨1.0, 2.0⟩ :=
    ⟨1, canBe item (by decide), Bin.has_ofInt_iff.2 (by decide +kernel)⟩
  have none : (Store.pair (.range 0 2)).constraints = #[] := rfl
  have isotone : (Store.pair (.range 0 2)).Isotone := ⟨by simp [none], by simp [none], by decide⟩
  have tells (i : Nat) (v : Var) (b : Nat) (bin : Bin) (listed : [(⟨0⟩ : Var)][i]? = some v)
      (found : Store.pairBins[b]? = some bin) : one.propagation.vars.Enters v bin ↔
        one.propagation.vars.CanBe (gridVar (Store.pair (.range 0 2)).vars.size Store.pairBins.length i b) 1 := by
    obtain _ | i := i
    · obtain rfl := Option.some.inj listed
      obtain _ | _ | b := b
      · obtain rfl := Option.some.inj found
        exact iff_of_true entersFirst (canBe first (by decide))
      · obtain rfl := Option.some.inj found
        exact iff_of_true entersSecond (canBe second (by decide))
      · cases found
    · cases listed
  obtain ⟨after', done', same⟩ := ((Reachable.encodeHistogram_kinds reachable fun v _ x => Store.isFinite_pair).2.1 one other
    (Store.encodeHistogram_pair _ _) (Store.encodeHistogram_pair _ _) isotone (fun v _ x => Store.isFinite_pair)
    ⟨by simp [ended], by simp [ended]⟩ ⟨by simp [ended'], by simp [ended']⟩).2.2 _ (Store.propagate_of_settled ended)
    fun i v b bin listed found _ => tells i v b bin listed found
  have alike := (Reachable.encodeHistogram_kinds (Store.reachable_pair rfl) fun v _ x => Store.isFinite_pair).2.2 _ _
    (Store.encodeHistogram_pair _ _) (Store.encodeHistogram_pair _ _)
    fun v item bin listed => List.mem_singleton.1 item ▸ Store.not_straddles_pair listed
  refine ⟨⟨one, other, _, after', reachable, Store.encodeHistogram_pair _ _, Store.encodeHistogram_pair _ _,
    Store.propagate_of_settled ended, straddles, done', same⟩, _, _, Store.reachable_pair rfl,
    Store.encodeHistogram_pair _ _, Store.encodeHistogram_pair _ _, by decide +kernel, alike⟩

/-- An item on both sides of the second bin that cannot be in it. Only the interval rules out that it is there, so that
    it has to be in the first. -/
theorem encodeHistogram_kinds_differ : ∃ one other after after' : Store,
    Reachable [] (Store.pair ⟨[0, 2], by decide⟩) ∧
    encodeHistogram .discrete "h" [⟨0⟩] Store.pairBins [⟨1⟩, ⟨2⟩] (Store.pair ⟨[0, 2], by decide⟩) = .ok () one ∧
    encodeHistogram .continuous "h" [⟨0⟩] Store.pairBins [⟨1⟩, ⟨2⟩] (Store.pair ⟨[0, 2], by decide⟩) = .ok () other ∧
    one.propagation.ending = .settled ∧ propagate one = .ok () after ∧
    other.propagation.ending = .settled ∧ propagate other = .ok () after' ∧
    (after.vars.get? ⟨0⟩).map Variable.domain = some (.finite ⟨[0, 2], by decide⟩) ∧
    (after'.vars.get? ⟨0⟩).map Variable.domain = some (.finite (.range 0 0)) := by
  have reachable : Reachable [] (Store.pair ⟨[0, 2], by decide⟩) := Store.reachable_pair rfl
  let one := Store.pairEncoded .discrete ⟨[0, 2], by decide⟩
  let other := Store.pairEncoded .continuous ⟨[0, 2], by decide⟩
  have ended : one.propagation.ending = .settled := by decide +kernel
  have ended' : other.propagation.ending = .settled := by decide +kernel
  exact ⟨one, other, _, _, reachable, Store.encodeHistogram_pair _ _, Store.encodeHistogram_pair _ _, ended,
    Store.propagate_of_settled ended, ended', Store.propagate_of_settled ended', by decide +kernel, by decide +kernel⟩

end StatBounds
