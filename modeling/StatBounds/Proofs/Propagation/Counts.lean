import StatBounds.Constraint.BinCount
import StatBounds.Proofs.BinCount.Exactness
import StatBounds.Proofs.Binary64.Integers
import StatBounds.Proofs.Propagation.Narrowing

/-! # Bin counts keep their solutions

An assignment that puts every item in exactly one bin and gives the counts their numbers is a feasible
assignment of the filter, whatever the domains are that admit it. So the filter leaves what the
assignment gives to the items and to the counts.
-/

namespace StatBounds

open Binary64 (IsNumber value ofInt toInt?)

variable {σ : Assignment}

/-! ## Ranges of counts -/

theorem exists_toInt?_between {x : Float} {n : Int} (same : x = ofInt n) (low high : ℝ)
    (above : (low : EReal) ≤ value x) (below : value x ≤ high) :
    ∃ m : Int, toInt? x = some m ∧ low ≤ m ∧ (m : ℝ) ≤ high := by
  subst same
  have finite : value (ofInt n) = ((value (ofInt n)).toReal : EReal) :=
    (EReal.coe_toReal (lt_of_le_of_lt below (EReal.coe_lt_top _)).ne
      (lt_of_lt_of_le (EReal.bot_lt_coe _) above).ne').symm
  obtain ⟨m, read⟩ := Binary64.exists_toInt?_ofInt finite
  rw [Binary64.value_of_toInt? read, EReal.coe_le_coe_iff] at above below
  exact ⟨m, read, above, below⟩

theorem exists_toInt?_larger {n : Int} {high : ℝ} (nonneg : 0 ≤ high) (below : value (ofInt n) ≤ high) :
    ∃ m : Int, toInt? (Binary64.larger (ofInt n) 0.0) = some m ∧ 0 ≤ m ∧ (m : ℝ) ≤ high := by
  have between := Binary64.value_larger (Binary64.isNumber_ofInt n) Binary64.isNumber_zero
  rw [Binary64.value_zero] at between
  obtain ⟨m, same⟩ : ∃ m, Binary64.larger (ofInt n) 0.0 = ofInt m :=
    (Binary64.larger_eq_or (ofInt n) 0.0).elim (fun same => ⟨n, same⟩) fun same => ⟨0, same.trans (by rfl)⟩
  obtain ⟨m, read, low, le⟩ := exists_toInt?_between same 0 high
    (by rw [between]; exact le_max_right _ _) (by rw [between]; exact max_le below (by exact_mod_cast nonneg))
  exact ⟨m, read, by exact_mod_cast low, le⟩

theorem exists_toInt?_smaller {n : Int} {items : Nat} (few : items < 2 ^ 63) {low : ℝ}
    (above : low ≤ value (ofInt n)) (above' : low ≤ value (Binary64.ofNat items)) :
    ∃ m : Int, toInt? (Binary64.smaller (ofInt n) (Binary64.ofNat items)) = some m ∧ low ≤ m := by
  have between := Binary64.value_smaller (Binary64.isNumber_ofInt n) (Binary64.isNumber_ofInt items)
  obtain ⟨most, finite⟩ := Binary64.value_ofInt_word (n := items) (by omega) (by omega)
  obtain ⟨m, same⟩ : ∃ m, Binary64.smaller (ofInt n) (Binary64.ofNat items) = ofInt m :=
    (Binary64.smaller_eq_or (ofInt n) (Binary64.ofNat items)).elim (fun same => ⟨n, same⟩) fun same => ⟨items, same⟩
  obtain ⟨m, read, le, -⟩ := exists_toInt?_between same low most
    (between.symm ▸ le_min above above') (between.symm ▸ (min_le_right _ _).trans finite.le)
  exact ⟨m, read, le⟩

theorem hull_eq {s : IntSet} {least greatest : Int} (first : s.min? = some least) (last : s.max? = some greatest) :
    s.hull = { lo := ofInt least, hi := ofInt greatest } := by
  simp only [IntSet.hull, first, last]
  exact Interval.ofBounds_of_isNumber (Binary64.isNumber_ofInt _) (Binary64.isNumber_ofInt _)

/-- The range that is read from a domain holds every number of items among its values. -/
theorem countRangeOf_spec {s : IntSet} {n : Int64} {count items : Nat} (member : n.toInt ∈ s.values)
    (reading : value (ofInt n.toInt) = ((count : ℝ) : EReal)) (le : count ≤ items)
    (few : items < 2 ^ 63) :
    ∃ lo hi, countRangeOf items (.finite s) = some (lo, hi) ∧ lo ≤ count ∧ count ≤ hi := by
  obtain ⟨least, greatest, first, last⟩ := IntSet.exists_extremes member
  have countEq : value (ofInt count) = ((count : ℝ) : EReal) := by
    have := Binary64.value_ofInt_of_value (n := count) (Binary64.isNumber_ofInt n.toInt)
      (by rw [reading, Int.cast_natCast])
    rwa [Int.cast_natCast] at this
  have above := Binary64.value_ofInt_mono (IntSet.min?_le first member)
  have below := Binary64.value_ofInt_mono (IntSet.le_max? last member)
  rw [reading] at above below
  obtain ⟨lo, readLo, nonneg, leCount⟩ := exists_toInt?_larger count.cast_nonneg above
  have itemsAbove : ((count : ℝ) : EReal) ≤ value (ofInt items) := by
    rw [← countEq]
    exact Binary64.value_ofInt_mono (by exact_mod_cast le)
  obtain ⟨hi, readHi, countLe⟩ := exists_toInt?_smaller few below itemsAbove
  have leCount : lo ≤ count := by exact_mod_cast leCount
  have countLe : (count : Int) ≤ hi := by exact_mod_cast countLe
  refine ⟨lo.toNat, hi.toNat, ?_, by omega, by omega⟩
  simp only [countRangeOf, hull_eq first last, readLo, readHi, Option.bind_eq_bind, Option.bind_some]
  rw [if_pos (by omega)]

/-! ## What bin counts mean -/

/-- What a variable is read as lies in the bin of a number. -/
def BinCount.InBin (c : BinCount) (σ : Assignment) (b : Nat) (v : Var) : Prop :=
  ∃ bin, c.filter.bins[b]? = some bin ∧ bin.Has (σ v).reading

open Classical in
/-- Every item lies in exactly one bin, and each count is the number of items in its bin. -/
structure BinCount.Holds (c : BinCount) (σ : Assignment) : Prop where
  one : ∀ v ∈ c.items, ∃! b, c.InBin σ b v
  counted : ∀ b v, c.counts[b]? = some v → (σ v).reading = c.items.countP fun item => c.InBin σ b item

namespace BinCount

variable {c : BinCount}

open Classical in
noncomputable def place (c : BinCount) (σ : Assignment) (v : Var) : Nat :=
  if some : ∃ b, c.InBin σ b v then some.choose else 0

theorem Holds.place_eq_iff (holds : c.Holds σ) {v : Var} (member : v ∈ c.items) {b : Nat} :
    c.place σ v = b ↔ c.InBin σ b v := by
  obtain ⟨only, inside, unique⟩ := holds.one v member
  have some : ∃ b, c.InBin σ b v := ⟨only, inside⟩
  have placed : c.place σ v = only := by
    rw [place, dif_pos some]
    exact unique _ some.choose_spec
  rw [placed]
  exact ⟨fun same => same ▸ inside, fun inB => (unique b inB).symm⟩

open Classical in
theorem Holds.count_place (holds : c.Holds σ) (b : Nat) :
    (c.items.map (c.place σ)).count b = c.items.countP fun item => c.InBin σ b item := by
  rw [List.count, List.countP_map]
  refine List.countP_congr fun v member => ?_
  simp only [Function.comp_apply, beq_iff_eq, decide_eq_true_eq]
  exact holds.place_eq_iff member

theorem meets_of_inBin {d : Domain} {v : Var} (admits : d.Admits (σ v)) {b : Nat}
    (inside : c.InBin σ b v) : ∃ bin, c.filter.bins[b]? = some bin ∧ d.meets bin.lb bin.ub = true := by
  obtain ⟨bin, found, has⟩ := inside
  refine ⟨bin, found, (Domain.meets_iff_reaches has.proper).2 ?_⟩
  cases d with
  | finite s =>
      obtain ⟨n, choice, member⟩ := admits.exists_int
      have contains : bin.contains (ofInt n.toInt) = true := by
        rw [Bin.contains_iff (Binary64.isNumber_ofInt _), Choice.value_ofInt, ← choice]
        exact has
      rw [Bin.contains, Bool.and_eq_true, decide_eq_true_eq, decide_eq_true_eq] at contains
      exact ⟨n.toInt, member, contains⟩
  | real r => exact ⟨_, admits.encloses_hull, has.above, has.below⟩

theorem Holds.feasible (holds : c.Holds σ) {domains : List Domain} {ranges : List (Nat × Nat)}
    (items : List.Forall₂ (fun v (d : Domain) => d.Admits (σ v)) c.items domains)
    (counts : List.Forall₂ (fun v (range : Nat × Nat) => ∀ count ≤ c.items.length,
      (σ v).reading = count → range.1 ≤ count ∧ count ≤ range.2) c.counts ranges) :
    c.filter.Feasible domains ranges (c.items.map (c.place σ)) := by
  refine ⟨?_, fun b range found => ?_⟩
  · rw [List.forall₂_map_left_iff, List.forall₂_iff_zip]
    refine ⟨items.length_eq, fun {v d} member => ?_⟩
    refine meets_of_inBin (List.forall₂_zip items member) ?_
    exact (holds.place_eq_iff (List.of_mem_zip member).1).1 rfl
  · obtain ⟨inside, rfl⟩ := List.getElem?_eq_some_iff.1 found
    have insideCounts : b < c.counts.length := counts.length_eq ▸ inside
    have reading := holds.counted b _ (List.getElem?_eq_getElem insideCounts)
    rw [← holds.count_place] at reading
    refine counts.get insideCounts inside _ ?_ reading
    exact List.count_le_length.trans (List.length_map _).le

theorem admits_of_leaves {given : Bin → Prop} {d left : Domain} {v : Var} (admits : d.Admits (σ v))
    (leaves : BinCountFilter.Leaves given d left) {bin : Bin} (member : given bin) (has : bin.Has (σ v).reading) :
    left.Admits (σ v) := by
  cases choice : σ v with
  | int n =>
      rw [choice] at admits has
      rw [← Choice.value_ofInt] at has
      have contains := (Bin.contains_iff (Binary64.isNumber_ofInt n.toInt)).2 has
      cases d with
      | real r => exact admits.elim
      | finite s =>
          cases left with
          | real _ => exact leaves.elim
          | finite left => exact (leaves n.toInt).2 ⟨admits, bin, member, contains⟩
  | real x =>
      rw [choice] at admits has
      obtain ⟨begins, ends⟩ := has.begins_ends
      cases d with
      | finite s => exact admits.elim
      | real r =>
          cases left with
          | finite _ => exact leaves.elim
          | real left => exact (leaves.2.2.2 _).2 ⟨admits, ⟨bin, member, begins⟩, bin, member, ends⟩

/-- What the filter tells admits the choices of the items and encloses the readings of the counts. -/
structure Allows (c : BinCount) (σ : Assignment) (filtered : Filtered) : Prop where
  items : List.Forall₂ (fun v (d : Domain) => d.Admits (σ v)) c.items filtered.items
  counts : List.Forall₂ (fun v (range : Nat × Nat) =>
    (Interval.ofBounds (Binary64.ofNat range.1) (Binary64.ofNat range.2)).Encloses (σ v).reading)
    c.counts filtered.counts

/-- Each count is the number of an integer. -/
def Counted (c : BinCount) (σ : Assignment) : Prop :=
  ∀ v ∈ c.counts, ∃ n, σ v = .int n

theorem Holds.allows (holds : c.Holds σ) (counted : c.Counted σ) {domains : List Domain}
    {ranges : List (Nat × Nat)} {out : Filtered}
    (items : List.Forall₂ (fun v (d : Domain) => d.Admits (σ v)) c.items domains)
    (same : c.counts.length = ranges.length)
    (feasible : c.filter.Feasible domains ranges (c.items.map (c.place σ)))
    (exact : c.filter.Exact domains ranges out) : c.Allows σ out := by
  refine ⟨?_, ?_⟩
  · refine List.forall₂_iff_get.2 ⟨items.length_eq.trans exact.sameItems.symm, fun i inside insideOut => ?_⟩
    have insideDomains : i < domains.length := items.length_eq ▸ inside
    have admits := items.get inside insideDomains
    obtain ⟨bin, found, has⟩ := (holds.place_eq_iff (List.getElem_mem inside)).1 rfl
    refine admits_of_leaves admits (exact.leaves i _ _ (List.getElem?_eq_getElem insideDomains)
      (List.getElem?_eq_getElem insideOut)) ⟨_, _, feasible, ?_, found⟩ has
    rw [List.getElem?_map, List.getElem?_eq_getElem inside, Option.map_some]
  · have lengths := same.trans exact.sameCounts.symm
    refine List.forall₂_iff_get.2 ⟨lengths, fun b inside insideOut => ?_⟩
    have found := List.getElem?_eq_getElem insideOut
    have low := (exact.least b _ found).2 ⟨_, feasible, rfl⟩
    have high := (exact.greatest b _ found).2 ⟨_, feasible, rfl⟩
    have reading := holds.counted b _ (List.getElem?_eq_getElem inside)
    rw [← holds.count_place] at reading
    obtain ⟨n, choice⟩ := counted _ (List.getElem_mem inside)
    -- The count is the number of an integer, so converting it back and forth changes nothing.
    have back : value (ofInt ((c.items.map (c.place σ)).count b)) = ((σ c.counts[b]).reading : EReal) := by
      have float := Choice.value_ofInt n
      rw [← choice, reading, ← Int.cast_natCast] at float
      rw [Binary64.value_ofInt_of_value (Binary64.isNumber_ofInt _) float, reading, Int.cast_natCast]
    simp only [List.get_eq_getElem]
    rw [← back]
    exact Interval.encloses_ofBounds (fun _ => Binary64.value_ofInt_mono (by exact_mod_cast low))
      (fun _ => Binary64.value_ofInt_mono (by exact_mod_cast high))

theorem Holds.countRangeOf_eq (holds : c.Holds σ) (counted : c.Counted σ)
    (few : c.items.length < 2 ^ 63) {v : Var} (member : v ∈ c.counts) {d : Domain}
    (admits : d.Admits (σ v)) :
    ∃ lo hi, countRangeOf c.items.length d = some (lo, hi) ∧
      ∀ count ≤ c.items.length, (σ v).reading = count → lo ≤ count ∧ count ≤ hi := by
  obtain ⟨b, found⟩ := List.mem_iff_getElem?.1 member
  have reading := holds.counted b v found
  obtain ⟨n, choice⟩ := counted v member
  cases d with
  | real r => exact (choice ▸ admits : (Domain.real r).Admits (.int n)).elim
  | finite s =>
      have inside : n.toInt ∈ s.values := (choice ▸ admits : (Domain.finite s).Admits (.int n))
      have float := Choice.value_ofInt n
      rw [← choice, reading] at float
      obtain ⟨lo, hi, same, low, high⟩ := countRangeOf_spec inside float List.countP_le_length few
      refine ⟨lo, hi, same, fun count _ other => ?_⟩
      obtain rfl : _ = count := Nat.cast_injective (reading.symm.trans other)
      exact ⟨low, high⟩

def readRange (c : BinCount) (v : Var) : NarrowM (Nat × Nat) := do
  let count ← Variables.fetch v
  match countRangeOf c.items.length count.domain with
  | some range => return range
  | none => throw (.error (.countOutOfReach count.name c.items.length))

theorem Holds.keeps_filtered (holds : c.Holds σ) (counted : c.Counted σ)
    (few : c.items.length < 2 ^ 63) : Keeps σ c.filtered (c.Allows σ) := by
  unfold filtered
  have readItems : Keeps σ (c.items.mapM fun v => return (← Variables.fetch v).domain)
      (List.Forall₂ (fun v (d : Domain) => d.Admits (σ v)) c.items) :=
    Keeps.mapM fun v _ => Keeps.fetch.bind fun x chosen => Keeps.pure chosen
  refine readItems.bind fun domains items => ?_
  have readCounts : Keeps σ (c.counts.mapM c.readRange)
      (List.Forall₂ (fun v (range : Nat × Nat) => ∀ count ≤ c.items.length,
        (σ v).reading = count → range.1 ≤ count ∧ count ≤ range.2) c.counts) :=
    Keeps.mapM fun v member => Keeps.fetch.bind fun x chosen => by
      obtain ⟨lo, hi, same, range⟩ := holds.countRangeOf_eq counted few member chosen
      simp only [same]
      exact Keeps.pure range
  refine readCounts.bind fun ranges counts => ?_
  have feasible := holds.feasible items counts
  rcases BinCountFilter.filter_cases_of_feasible (items.length_eq ▸ few) feasible with
    ⟨out, same, exact⟩ | same | same
  · simp only [same]
    exact Keeps.pure (holds.allows counted items counts.length_eq feasible exact)
  · simp only [same]
    exact fun vars admits => ⟨admits, by simp [Failure.Infeasible, Error.kind]⟩
  · simp only [same]
    exact fun vars admits => ⟨admits, id⟩

theorem Holds.keeps (holds : c.Holds σ) (counted : c.Counted σ) (few : c.items.length < 2 ^ 63) :
    Keeps σ c.propagate fun _ => True := by
  unfold propagate
  refine (holds.keeps_filtered counted few).bind fun out allows => ?_
  refine Keeps.bind (Keeps.forM fun item member => ?_) fun _ _ => Keeps.forM fun count member => ?_
  · exact (keeps_restrict (List.forall₂_zip allows.items member)).discard
  · exact (keeps_narrow (List.forall₂_zip allows.counts member)).discard

end BinCount

end StatBounds
