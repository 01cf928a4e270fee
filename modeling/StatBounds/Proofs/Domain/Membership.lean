import StatBounds.Proofs.Domain.Readings

/-! # Numbers as members of finite domains

A number becomes an integer where its membership is tested, and the integers become numbers where the hull and the bins
are. In the range of the 64-bit integers the two ways agree: a number is a member iff a member equals it. A number
beyond that range is taken for the last integer before it, which has another value.
-/

namespace StatBounds

open Binary64 (IsNumber value)

/-! ## The last 64-bit integer -/

namespace Binary64

/-- The greatest 64-bit integer is rounded to the power of two after it. -/
theorem value_ofInt_last : value (ofInt (2 ^ 63 - 1)) = ((2 ^ 63 : ℝ) : EReal) := by
  have unpacked : (ofInt (2 ^ 63 - 1)).toModel.unpack = .finite .positive (2 ^ 52) 11 (by decide) := by rfl
  rw [value, unpacked, valueOf_finite_positive]
  norm_num

end Binary64

namespace IntSet

variable {s : IntSet} {x : Float} {r : ℝ}

/-! ## Members and their numbers -/

theorem containsNumber_iff (number : IsNumber x) (finite : value x = r) (low : -2 ^ 63 ≤ r) (high : r < 2 ^ 63) :
    s.containsNumber x = true ↔ ∃ n ∈ s.values, value x = ((n : ℝ) : EReal) := by
  have kept {n : Int} (same : value x = ((n : ℝ) : EReal)) : Binary64.clampInt64 n = n := by
    rw [finite, EReal.coe_eq_coe_iff] at same
    rw [same] at low high
    have low : -2 ^ 63 ≤ n := by exact_mod_cast low
    have high : n < 2 ^ 63 := by exact_mod_cast high
    unfold Binary64.clampInt64
    omega
  unfold containsNumber
  constructor
  · intro contains
    split at contains
    · next n read =>
        have same := Binary64.value_of_toInt? read
        rw [kept same, IntSet.contains, List.contains_iff_mem] at contains
        exact ⟨n, contains, same⟩
    · cases contains
  · rintro ⟨n, member, same⟩
    simp only [Binary64.toInt?_of_value number same, kept same, IntSet.contains]
    exact List.contains_iff_mem.2 member

/-- A number above the 64-bit integers is taken for the greatest of them. -/
theorem containsNumber_above (finite : value x = r) (large : 2 ^ 63 ≤ r) :
    s.containsNumber x = true ↔ 2 ^ 63 - 1 ∈ s.values := by
  obtain ⟨n, read⟩ := Binary64.exists_toInt?_of_large finite ((by linarith : (2 : ℝ) ^ 53 ≤ r).trans (le_abs_self r))
  have same := Binary64.value_of_toInt? read
  rw [finite, EReal.coe_eq_coe_iff] at same
  rw [same] at large
  have large : 2 ^ 63 ≤ n := by exact_mod_cast large
  have last : Binary64.clampInt64 n = 2 ^ 63 - 1 := by
    unfold Binary64.clampInt64
    omega
  simp only [containsNumber, read, last, IntSet.contains, List.contains_iff_mem]

/-- A number below the 64-bit integers is taken for the least of them. -/
theorem containsNumber_below (finite : value x = r) (small : r < -2 ^ 63) :
    s.containsNumber x = true ↔ -2 ^ 63 ∈ s.values := by
  obtain ⟨n, read⟩ := Binary64.exists_toInt?_of_large finite
    ((by linarith : (2 : ℝ) ^ 53 ≤ -r).trans (neg_le_abs r))
  have same := Binary64.value_of_toInt? read
  rw [finite, EReal.coe_eq_coe_iff] at same
  rw [same] at small
  have small : n < -2 ^ 63 := by exact_mod_cast small
  have last : Binary64.clampInt64 n = -2 ^ 63 := by
    unfold Binary64.clampInt64
    omega
  simp only [containsNumber, read, last, IntSet.contains, List.contains_iff_mem]

/-- Up to the bounds of the 64-bit integers, a member is the number that one of the integers becomes. -/
theorem exists_ofInt_of_containsNumber (number : IsNumber x) (finite : value x = r) (range : |r| ≤ 2 ^ 63)
    (contains : s.containsNumber x = true) : ∃ n ∈ s.values, value (Binary64.ofInt n) = value x := by
  obtain ⟨low, high⟩ := abs_le.1 range
  rcases lt_or_eq_of_le high with less | rfl
  · obtain ⟨n, member, same⟩ := (containsNumber_iff number finite low less).1 contains
    exact ⟨n, member, (Binary64.value_ofInt_of_value number same).trans same.symm⟩
  · exact ⟨_, (containsNumber_above finite le_rfl).1 contains, Binary64.value_ofInt_last.trans finite.symm⟩

/-- Whether a finite number is a member of a set of integers, and what the hull and the bins have to do with it. -/
theorem membership_agrees (s : IntSet) (x : Float) (r : ℝ) (number : IsNumber x) (finite : value x = r) :
    (-2 ^ 63 ≤ r → r < 2 ^ 63 → (s.containsNumber x = true ↔ ∃ n ∈ s.values, value x = ((n : ℝ) : EReal))) ∧
    (2 ^ 63 ≤ r → (s.containsNumber x = true ↔ 2 ^ 63 - 1 ∈ s.values)) ∧
    (r < -2 ^ 63 → (s.containsNumber x = true ↔ -2 ^ 63 ∈ s.values)) ∧
    (|r| ≤ 2 ^ 63 → s.containsNumber x = true →
      s.hull.Encloses (value x) ∧ ∀ lb ub, lb ≤ x → x < ub → s.meets lb ub = true) := by
  refine ⟨containsNumber_iff number finite, containsNumber_above finite, containsNumber_below finite, ?_⟩
  intro range contains
  obtain ⟨n, member, same⟩ := exists_ofInt_of_containsNumber number finite range contains
  refine ⟨same ▸ encloses_hull member, fun lb ub above below => ?_⟩
  obtain ⟨numberLb, -, above⟩ := Binary64.le_iff.1 above
  obtain ⟨-, numberUb, below⟩ := Binary64.lt_iff.1 below
  refine (meets_iff numberLb).2 ⟨n, member, ?_, ?_⟩
  · exact Binary64.le_iff.2 ⟨numberLb, Binary64.isNumber_ofInt n, same ▸ above⟩
  · exact Binary64.lt_iff.2 ⟨Binary64.isNumber_ofInt n, numberUb, same ▸ below⟩

/-- The least 64-bit integer and the power of two after the greatest one are numbers that such integers become. -/
theorem membership_agrees_extremes : ∃ s : IntSet, s.values = [-2 ^ 63, 2 ^ 63 - 1] ∧
    (∃ n ∈ s.values, value (Binary64.ofInt (-2 ^ 63)) = ((n : ℝ) : EReal)) ∧
    s.meets (Binary64.ofInt (2 ^ 63)) Binary64.infinity = true := by
  let s : IntSet := ⟨[-2 ^ 63, 2 ^ 63 - 1], by decide⟩
  have power : value (Binary64.ofInt (2 ^ 63)) = ((2 ^ 63 : ℝ) : EReal) := by
    have same : Binary64.ofInt (2 ^ 63) = Binary64.ofInt (2 ^ 63 - 1) := by rfl
    rw [same, Binary64.value_ofInt_last]
  have least : value (Binary64.ofInt (-2 ^ 63)) = ((-2 ^ 63 : ℝ) : EReal) := by
    rw [Binary64.value_ofInt_neg, power, EReal.coe_neg]
  obtain ⟨equal, -⟩ := membership_agrees s (Binary64.ofInt (-2 ^ 63)) (-2 ^ 63) (Binary64.isNumber_ofInt _) least
  obtain ⟨-, above, -, agrees⟩ :=
    membership_agrees s (Binary64.ofInt (2 ^ 63)) (2 ^ 63) (Binary64.isNumber_ofInt _) power
  refine ⟨s, rfl, (equal le_rfl (by norm_num)).1 (by decide +kernel), ?_⟩
  refine (agrees (abs_of_pos (by positivity)).le ((above le_rfl).2 (by decide))).2 _ _ ?_ ?_
  · exact Binary64.le_iff.2 ⟨Binary64.isNumber_ofInt _, Binary64.isNumber_ofInt _, le_rfl⟩
  · refine Binary64.lt_iff.2 ⟨Binary64.isNumber_ofInt _, Binary64.isNumber_infinity, ?_⟩
    rw [power, Binary64.value_infinity]
    exact EReal.coe_lt_top _

/-- A number far above the 64-bit integers is taken for a member. No integer equals it, the hull ends before it, and
    no member lies in the bin that starts with it. -/
theorem membership_beyond_last : ∃ s : IntSet, s.values = [2 ^ 63 - 1] ∧
    s.containsNumber (Binary64.ofInt (2 ^ 70)) = true ∧
    (∀ n ∈ s.values, value (Binary64.ofInt (2 ^ 70)) ≠ ((n : ℝ) : EReal)) ∧
    ¬ s.hull.Encloses (value (Binary64.ofInt (2 ^ 70))) ∧
    s.meets (Binary64.ofInt (2 ^ 70)) Binary64.infinity = false := by
  have far : value (Binary64.ofInt (2 ^ 70)) = ((2 ^ 70 : ℝ) : EReal) := by
    have unpacked : (Binary64.ofInt (2 ^ 70)).toModel.unpack = .finite .positive (2 ^ 52) 18 (by decide) := by rfl
    rw [value, unpacked, Binary64.valueOf_finite_positive]
    norm_num
  refine ⟨⟨[2 ^ 63 - 1], by decide⟩, rfl, by decide +kernel, ?_, fun encloses => ?_, by decide +kernel⟩
  · intro n member
    rw [List.mem_singleton.1 member, far, Ne, EReal.coe_eq_coe_iff]
    norm_num
  · have upper := encloses.upper
    change _ ≤ value (Interval.point (Binary64.ofInt (2 ^ 63 - 1))).hi at upper
    rw [Interval.point, Interval.ofBounds_of_isNumber (Binary64.isNumber_ofInt _) (Binary64.isNumber_ofInt _), far,
      Binary64.value_ofInt_last, EReal.coe_le_coe_iff] at upper
    norm_num at upper

end IntSet

end StatBounds
