import StatBounds.Proofs.BinCount.Exactness
import StatBounds.Proofs.Propagation.Failures
import StatBounds.Proofs.Propagation.Order

/-! # When counts are too large to be added

The numbers of items that bins take are added up in machine words. A count that is read from a variable is no greater
than the number of items, so the sums stay small unless there are very many items and bins.
-/

namespace StatBounds

/-- A range of counts is in order and ends with the number of items at the latest. -/
theorem le_of_countRangeOf {d : Domain} {items : Nat} {range : Nat × Nat} (few : items < 2 ^ 53)
    (read : countRangeOf items d = some range) : range.1 ≤ range.2 ∧ range.2 ≤ items := by
  cases d with
  | real r => simp [countRangeOf] at read
  | finite s =>
      simp only [countRangeOf, Option.bind_eq_bind, Option.bind_eq_some_iff] at read
      obtain ⟨lo, -, hi, readHi, made⟩ := read
      split_ifs at made with order
      obtain rfl := Option.some.inj made
      have number := Binary64.isNumber_ofInt (items : Int)
      have upper := Binary64.value_of_toInt? readHi
      rw [show Binary64.ofNat items = Binary64.ofInt items from rfl,
        Binary64.value_smaller s.proper_hull.2 number] at upper
      have small : |(items : Int)| < 2 ^ 53 := by
        rw [Nat.abs_cast]
        omega
      have below := upper.ge.trans (min_le_right _ _)
      rw [Binary64.value_ofInt_exact small.le] at below
      have below : hi ≤ (items : Int) := by exact_mod_cast below
      exact ⟨by omega, by omega⟩

namespace BinCountFilter

variable {f : BinCountFilter} {items : List Domain} {counts : List (Nat × Nat)}

theorem checkCapacity_ne_overflow (count : Nat) {bounds : List (Nat × Nat)}
    (lower : (bounds.map Prod.fst).sum < 2 ^ 64) (upper : (bounds.map Prod.snd).sum < 2 ^ 64) :
    checkCapacity count bounds ≠ .error (.fault .overflow) := by
  simp only [checkCapacity, Transportation.countSum, if_pos lower, if_pos upper, orFault, ok_bind]
  split_ifs <;> simp

theorem allowed_ne_overflow (f : BinCountFilter) (items : List Domain) :
    f.allowed items ≠ .error (.fault .overflow) := by
  let isReported (failure : Failure) : Prop := failure ≠ .fault .overflow
  intro fails
  have reported : isReported (.fault .overflow) := by
    refine of_mapM_eq_error (fun numbered _ failure same => ?_) fails
    dsimp only at same
    split at same
    · exact Except.error.inj same ▸ fun other => nomatch other
    · cases same
  exact reported rfl

/-- No sum is too large if the sums of the bounds are not. -/
theorem filter_ne_overflow (few : items.length * counts.length < 2 ^ 63) (lower : (counts.map Prod.fst).sum < 2 ^ 64)
    (upper : ((clipped items counts).map Prod.snd).sum < 2 ^ 64) :
    f.filter items counts ≠ .error (.fault .overflow) := by
  by_cases lengths : counts.length = f.bins.length
  · by_cases someBin : ∀ item ∈ items, f.binsOf item ≠ []
    · have few : items.length < 2 ^ 63 := by
        cases items with
        | nil => simp
        | cons item items =>
            obtain ⟨b, member⟩ := List.exists_mem_of_ne_nil _ (someBin item (by simp))
            obtain ⟨bin, found, -⟩ := mem_binsOf.1 member
            have some : 0 < counts.length := lengths ▸ Nat.zero_lt_of_lt (List.getElem?_eq_some_iff.1 found).1
            nlinarith
      have fits : (f.problem items counts lengths).Fits := fits_problem few lower upper
      obtain ⟨answer, decided, isFeasible⟩ := Transportation.isFeasible_spec fits
      cases capacity : checkCapacity items.length (clipped items counts) with
      | error failure =>
          rw [filter_eq lengths someBin, capacity]
          have lower : ((clipped items counts).map Prod.fst).sum < 2 ^ 64 := by rwa [map_fst_clipped]
          have reported := checkCapacity_ne_overflow items.length lower upper
          rw [capacity] at reported
          exact fun same => reported (congrArg Except.error (Except.error.inj same))
      | ok _ =>
          cases answer with
          | true =>
              obtain ⟨bins, feasible⟩ := feasible_iff.1 (isFeasible.1 rfl)
              obtain ⟨out, same, -⟩ := filter_of_feasible lengths few lower upper feasible
              simp [same]
          | false => simp [filter_of_capacity lengths someBin capacity decided]
    · push Not at someBin
      obtain ⟨item, member, noBin⟩ := someBin
      obtain ⟨failure, fails⟩ := allowed_error member noBin
      rw [filter, if_neg (not_not.2 lengths)]
      have reported := allowed_ne_overflow f items
      rw [fails] at reported
      simp only [fails]
      exact fun same => reported (congrArg Except.error (Except.error.inj same))
  · rw [filter, if_pos lengths]
    intro same
    cases same

end BinCountFilter

namespace BinCount

variable {c : BinCount}

/-- No sum of counts is too large if there are not too many items and bins. -/
theorem filtered_ne_overflow (few : c.items.length * c.counts.length < 2 ^ 53) :
    FailsWith (· ≠ .fault .overflow) c.filtered := by
  have found (v : Var) : FailsWith (· ≠ .fault .overflow) (Variables.fetch v) :=
    (FailsPlainly.fetch v).mono fun failure plain same => by
      subst same
      exact plain rfl
  refine (FailsWith.mapM fun v _ => (found v).bind fun _ => .pure _).bind_result fun domains vars after readItems => ?_
  refine (FailsWith.mapM fun v _ => (found v).bind fun x => ?_).bind_result fun ranges vars after readCounts => ?_
  · split
    · exact .pure _
    · exact .fail fun same => nomatch same
  have sameItems := length_of_mapM_eq_ok readItems
  have sameCounts := length_of_mapM_eq_ok readCounts
  have each (range : Nat × Nat) (member : range ∈ ranges) : range.1 ≤ c.items.length ∧ range.2 ≤ c.items.length := by
    have positive : 0 < ranges.length := List.length_pos_of_mem member
    have small : c.items.length < 2 ^ 53 := by nlinarith
    obtain ⟨v, before, middle, ran⟩ := exists_of_mapM_eq_ok readCounts range member
    cases found : before.get? v with
    | none =>
        rw [fetch_bind_missing found] at ran
        cases ran
    | some x =>
        rw [fetch_bind found] at ran
        cases read : countRangeOf c.items.length x.domain with
        | none => simp [read, throw, throwThe, MonadExceptOf.throw, EStateM.throw] at ran
        | some range' =>
            rw [read] at ran
            cases ran
            have ordered := le_of_countRangeOf small read
            exact ⟨ordered.1.trans ordered.2, ordered.2⟩
  have sums (bounds : List Nat) (lengths : bounds.length = c.counts.length) (all : ∀ n ∈ bounds, n ≤ c.items.length) :
      bounds.sum < 2 ^ 64 := by
    have total := List.sum_le_card_nsmul bounds c.items.length all
    rw [smul_eq_mul, lengths, Nat.mul_comm] at total
    omega
  have lower : (ranges.map Prod.fst).sum < 2 ^ 64 := by
    refine sums _ (by simpa using sameCounts) fun n member => ?_
    obtain ⟨range, listed, rfl⟩ := List.mem_map.1 member
    exact (each range listed).1
  have upper : ((BinCountFilter.clipped domains ranges).map Prod.snd).sum < 2 ^ 64 := by
    refine sums _ (by simpa [BinCountFilter.clipped] using sameCounts) fun n member => ?_
    simp only [BinCountFilter.clipped, List.map_map, List.mem_map, Function.comp_def] at member
    obtain ⟨range, listed, rfl⟩ := member
    exact (min_le_left _ _).trans (each range listed).2
  split
  · exact .pure _
  · next failure same =>
      have few : domains.length * ranges.length < 2 ^ 63 := by
        rw [sameItems, sameCounts]
        omega
      exact .fail fun overflow => BinCountFilter.filter_ne_overflow few lower upper (overflow ▸ same)

/-- Counting fails by reporting an error, unless there are so many items and bins that a sum of counts may be too
    large. -/
theorem fails_filtered {vars : Variables} (known : ∀ v ∈ c.scope, vars.contains v = true) :
    Ensures c.filtered vars (fun _ _ => True) fun failure _ =>
      failure.Reported ∨ 2 ^ 53 ≤ c.items.length * c.counts.length ∧ failure = .fault .overflow := by
  have isLocal : Local (· ∈ c.scope) c.filtered := .filtered fun _ inScope => inScope
  have inRange : Ensures c.filtered vars (fun _ _ => True) fun failure _ =>
      failure.Reported ∨ failure = .fault .overflow :=
    (isLocal.narrowing.narrowsWithin vars).mono (fun _ _ _ => trivial) fun _ _ fails =>
      Failure.reported_or_overflow (fails.2 known)
  by_cases few : c.items.length * c.counts.length < 2 ^ 53
  · refine (inRange.and (filtered_ne_overflow few vars)).mono (fun _ _ _ => trivial) fun failure _ both => ?_
    exact .inl (both.1.resolve_right both.2)
  · exact inRange.mono (fun _ _ _ => trivial)
      fun failure _ either => either.imp_right fun overflow => ⟨not_lt.1 few, overflow⟩

end BinCount

end StatBounds
