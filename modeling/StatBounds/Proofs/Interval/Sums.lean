import StatBounds.Proofs.Interval.Enclosure

/-! # Sums of small integers

Numbers of moderate size that are multiples of a fixed small power of two are binary64 numbers. So a sum that is
rounded outward leaves an exact sum on this grid by one step of the grid for each addition at most. If the grid is finer
than the number of additions, then the sum of intervals between integers encloses no integers but those between the sums
of the bounds.
-/

namespace StatBounds

open Binary64 (IsNumber value next previous infinity)

namespace Binary64

/-! ## A grid of numbers -/

/-- A multiple of the width of a grid, which is a power of two. -/
noncomputable def grid (w : ℕ) (m : ℤ) : ℝ :=
  m * 2 ^ (-w : ℤ)

variable {w : ℕ}

@[simp] theorem grid_add (m n : ℤ) : grid w (m + n) = grid w m + grid w n := by
  simp [grid, add_mul]

@[simp] theorem grid_neg (m : ℤ) : grid w (-m) = -grid w m := by
  simp [grid]

theorem grid_strictMono : StrictMono (grid w) := by
  intro m n less
  have cast : (m : ℝ) < n := by exact_mod_cast less
  exact mul_lt_mul_of_pos_right cast (by positivity)

theorem grid_integer (n : ℤ) : grid w (n * 2 ^ w) = n := by
  rw [grid]
  push_cast
  rw [mul_assoc, ← zpow_natCast, ← zpow_add₀ (by norm_num), add_neg_cancel, zpow_zero, mul_one]

private theorem exists_grid_of_pos {m : ℕ} (fine : w ≤ 1000) (positive : 0 < m) (small : m < 2 ^ 53) :
    ∃ y, IsNumber y ∧ value y = ((grid w m : ℝ) : EReal) := by
  have bits : m.log2 ≤ 52 := Nat.le_of_lt_succ ((Nat.log2_lt positive.ne').2 small)
  -- The significand is shifted to the left until its leading bit is set.
  let k := 52 - m.log2
  have sum : m.log2 + k = 52 := by omega
  have leading : 2 ^ 52 ≤ m * 2 ^ k := by
    calc 2 ^ 52 = 2 ^ m.log2 * 2 ^ k := by rw [← pow_add, sum]
      _ ≤ m * 2 ^ k := Nat.mul_le_mul_right _ (Nat.log2_self_le positive.ne')
  have fits : m * 2 ^ k < 2 ^ 53 := by
    calc m * 2 ^ k < 2 ^ (m.log2 + 1) * 2 ^ k := Nat.mul_lt_mul_of_pos_right Nat.lt_log2_self (Nat.two_pow_pos k)
      _ = 2 ^ 53 := by rw [← pow_add, Nat.add_right_comm, sum]
  obtain ⟨number, same⟩ := value_encode_positive (Nat.zero_lt_of_lt (Nat.lt_of_lt_of_le (Nat.two_pow_pos 52) leading))
    fits (e := -w - k) (by omega) (.inl leading)
  refine ⟨_, number, same.trans ?_⟩
  have exact : ((m * 2 ^ k : ℕ) : ℝ) * 2 ^ (-w - k : ℤ) = grid w m := by
    rw [grid]
    push_cast
    rw [mul_assoc, ← zpow_natCast, ← zpow_add₀ (by norm_num)]
    norm_num
  have below : grid w m < limit := by
    rw [← exact]
    exact magnitude_lt_limit fits (by omega)
  rw [exact, clip, if_pos below]

theorem exists_grid {m : ℤ} (fine : w ≤ 1000) (small : |m| < 2 ^ 53) :
    ∃ y, IsNumber y ∧ value y = ((grid w m : ℝ) : EReal) := by
  obtain ⟨low, high⟩ := abs_lt.1 small
  rcases lt_trichotomy m 0 with negative | rfl | positive
  · obtain ⟨y, number, same⟩ := exists_grid_of_pos (m := (-m).toNat) fine (by omega) (by omega)
    rw [Int.toNat_of_nonneg (by omega), grid_neg, EReal.coe_neg] at same
    exact ⟨-y, isNumber_neg.2 number, by rw [value_neg, same, neg_neg]⟩
  · exact ⟨0.0, isNumber_zero, by simp [grid, value_zero]⟩
  · obtain ⟨y, number, same⟩ := exists_grid_of_pos (m := m.toNat) fine (by omega) (by omega)
    rw [Int.toNat_of_nonneg (by omega)] at same
    exact ⟨y, number, same⟩

section

variable {x y : Float} {m : ℤ} (fine : w ≤ 1000)

include fine

/-- A step up leaves the numbers up to one of the grid by one width of the grid at most. -/
theorem next_le_grid (number : IsNumber x) (small : |m + 1| < 2 ^ 53) (le : value x ≤ grid w m) :
    value (next x) ≤ grid w (m + 1) := by
  obtain ⟨z, numberZ, same⟩ := exists_grid fine small
  rw [← same]
  refine next_le number numberZ (le.trans_lt ?_)
  rw [same, EReal.coe_lt_coe_iff]
  exact grid_strictMono (by omega)

theorem grid_le_previous (number : IsNumber x) (small : |m - 1| < 2 ^ 53) (le : grid w m ≤ value x) :
    grid w (m - 1) ≤ value (previous x) := by
  have mirrored := next_le_grid fine (isNumber_neg.2 number) (m := -m)
    (by rw [← abs_neg, show -(-m + 1) = m - 1 by ring]; exact small)
    (by rw [value_neg, grid_neg, EReal.coe_neg]; exact EReal.neg_le_neg_iff.2 le)
  rw [previous, value_neg, show m - 1 = -(-m + 1) by ring, grid_neg, EReal.coe_neg]
  exact EReal.neg_le_neg_iff.2 mirrored

/-- Rounding does not pass a number of the grid. -/
theorem IsRounding.le_grid {r : ℝ} (rounding : IsRounding r x) (small : |m| < 2 ^ 53) (le : r ≤ grid w m) :
    value x ≤ grid w m := by
  obtain ⟨z, number, same⟩ := exists_grid fine small
  rw [← same]
  refine (rounding.faithful _ (canonical_unpack _) number).2 ?_
  change (r : EReal) ≤ value z
  rw [same, EReal.coe_le_coe_iff]
  exact le

theorem IsRounding.grid_le {r : ℝ} (rounding : IsRounding r x) (small : |m| < 2 ^ 53) (le : grid w m ≤ r) :
    grid w m ≤ value x := by
  obtain ⟨z, number, same⟩ := exists_grid fine small
  rw [← same]
  refine (rounding.faithful _ (canonical_unpack _) number).1 ?_
  change value z ≤ (r : EReal)
  rw [same, EReal.coe_le_coe_iff]
  exact le

end

end Binary64

open Binary64 (grid)

namespace Interval

/-! ## Intervals near two integers -/

/-- The interval encloses two integers, and leaves what lies between them by a number of widths of a grid at most. -/
structure Near (i : Interval) (w : ℕ) (a b : ℤ) (k : ℕ) : Prop where
  fine : w ≤ 1000
  low : i.Encloses (a : ℝ)
  high : i.Encloses (b : ℝ)
  lower : grid w (a * 2 ^ w - k) ≤ value i.lo
  upper : value i.hi ≤ grid w (b * 2 ^ w + k)

/-- So near an integer, all numbers of the grid are binary64 numbers. -/
def Fits (w : ℕ) (a : ℤ) (k : ℕ) : Prop :=
  a.natAbs * 2 ^ w + k < 2 ^ 53

variable {i j : Interval} {w : ℕ} {a b c d : ℤ} {k l : ℕ}

theorem Fits.of_le {M total steps : ℕ} (fits : total * 2 ^ w + steps < 2 ^ 53) (small : a.natAbs ≤ M)
    (le : M ≤ total) (few : k ≤ steps) : Fits w a k :=
  (Nat.add_le_add (Nat.mul_le_mul_right _ (small.trans le)) few).trans_lt fits

theorem Fits.bounds (fits : Fits w a k) : -2 ^ 53 < a * 2 ^ w - k ∧ a * 2 ^ w + k < 2 ^ 53 := by
  have size : (a * 2 ^ w).natAbs = a.natAbs * 2 ^ w := by
    rw [Int.natAbs_mul, Int.natAbs_pow]
    rfl
  rw [Fits, ← size] at fits
  omega

/-- The bounds of such an interval are real numbers. -/
theorem Near.bounds (near : i.Near w a b k) : ∃ r s : ℝ, value i.lo = r ∧ value i.hi = s ∧
    grid w (a * 2 ^ w - k) ≤ r ∧ s ≤ grid w (b * 2 ^ w + k) := by
  obtain ⟨-, low, high, lower, upper⟩ := near
  have low := low.lower
  have high := high.upper
  generalize value i.lo = p at lower low ⊢
  generalize value i.hi = q at upper high ⊢
  lift p to ℝ using ⟨(low.trans_lt (EReal.coe_lt_top _)).ne, ((EReal.bot_lt_coe _).trans_le lower).ne'⟩
  lift q to ℝ using ⟨(upper.trans_lt (EReal.coe_lt_top _)).ne, ((EReal.bot_lt_coe _).trans_le high).ne'⟩
  exact ⟨p, q, rfl, rfl, EReal.coe_le_coe_iff.1 lower, EReal.coe_le_coe_iff.1 upper⟩

/-- Adding loses one width of the grid. -/
theorem Near.add (left : i.Near w a b k) (right : j.Near w c d l) (fitsLow : Fits w (a + c) (k + l + 1))
    (fitsHigh : Fits w (b + d) (k + l + 1)) : (i + j).Near w (a + c) (b + d) (k + l + 1) := by
  obtain ⟨r, s, low, high, lower, upper⟩ := left.bounds
  obtain ⟨r', s', low', high', lower', upper'⟩ := right.bounds
  have fine := left.fine
  have properI := left.low.proper
  have properJ := right.low.proper
  have sumLo := Binary64.isRounding_add properI.lo properJ.lo low low'
  have sumHi := Binary64.isRounding_add properI.hi properJ.hi high high'
  have bounds : i + j = { lo := previous (i.lo + j.lo), hi := next (i.hi + j.hi) } := by
    have numberLo : (i.lo + j.lo).isNaN = false := sumLo.isNumber
    have numberHi : (i.hi + j.hi).isNaN = false := sumHi.isNumber
    change Interval.add i j = _
    rw [Interval.add, left.low.notEmpty, right.low.notEmpty, outward, numberLo, numberHi]
    rfl
  obtain ⟨least, most⟩ := fitsLow.bounds
  obtain ⟨least', most'⟩ := fitsHigh.bounds
  push_cast at least most least' most'
  refine ⟨fine, ?_, ?_, ?_, ?_⟩
  · rw [Int.cast_add]
    exact left.low.add right.low
  · rw [Int.cast_add]
    exact left.high.add right.high
  · have split : (a + c) * 2 ^ w - ((k + l + 1 : ℕ) : ℤ) = (a + c) * 2 ^ w - (k + l) - 1 := by push_cast; ring
    rw [bounds, split]
    refine Binary64.grid_le_previous fine sumLo.isNumber (abs_lt.2 ⟨by omega, by omega⟩) ?_
    refine sumLo.grid_le fine (abs_lt.2 ⟨by omega, by omega⟩) ?_
    rw [show (a + c) * 2 ^ w - (k + l) = (a * 2 ^ w - k) + (c * 2 ^ w - l) by ring, Binary64.grid_add]
    exact add_le_add lower lower'
  · have split : (b + d) * 2 ^ w + ((k + l + 1 : ℕ) : ℤ) = (b + d) * 2 ^ w + (k + l) + 1 := by push_cast; ring
    rw [bounds, split]
    refine Binary64.next_le_grid fine sumHi.isNumber (abs_lt.2 ⟨by omega, by omega⟩) ?_
    refine sumHi.le_grid fine (abs_lt.2 ⟨by omega, by omega⟩) ?_
    rw [show (b + d) * 2 ^ w + (k + l) = (b * 2 ^ w + k) + (d * 2 ^ w + l) by ring, Binary64.grid_add]
    exact add_le_add upper upper'

theorem Near.neg (near : i.Near w a b k) : (-i).Near w (-b) (-a) k := by
  have same : -i = { lo := -i.hi, hi := -i.lo } := if_neg (by simp [near.low.notEmpty])
  refine ⟨near.fine, ?_, ?_, ?_, ?_⟩
  · rw [Int.cast_neg]
    exact near.high.neg
  · rw [Int.cast_neg]
    exact near.low.neg
  · rw [same, show -b * 2 ^ w - (k : ℤ) = -(b * 2 ^ w + k) by ring, Binary64.grid_neg, EReal.coe_neg,
      Binary64.value_neg]
    exact EReal.neg_le_neg_iff.2 near.upper
  · rw [same, show -a * 2 ^ w + (k : ℤ) = -(a * 2 ^ w - k) by ring, Binary64.grid_neg, EReal.coe_neg,
      Binary64.value_neg]
    exact EReal.neg_le_neg_iff.2 near.lower

theorem Near.sub (left : i.Near w a b k) (right : j.Near w c d l) (fitsLow : Fits w (a - d) (k + l + 1))
    (fitsHigh : Fits w (b - c) (k + l + 1)) : (i - j).Near w (a - d) (b - c) (k + l + 1) := by
  rw [sub_eq_add_neg] at fitsLow fitsHigh ⊢
  rw [sub_eq_add_neg b]
  exact left.add right.neg fitsLow fitsHigh

theorem near_ofBounds (fine : w ≤ 1000) (le : a ≤ b) (smallA : |a| ≤ 2 ^ 53) (smallB : |b| ≤ 2 ^ 53) :
    (ofBounds (Binary64.ofInt a) (Binary64.ofInt b)).Near w a b 0 := by
  have number := Binary64.isNumber_ofInt
  have exactA := Binary64.value_ofInt_exact smallA
  have exactB := Binary64.value_ofInt_exact smallB
  have cast : (a : ℝ) ≤ b := by exact_mod_cast le
  rw [ofBounds_of_isNumber (number a) (number b)]
  refine ⟨fine, ⟨⟨number a, number b⟩, exactA.le, ?_⟩, ⟨⟨number a, number b⟩, ?_, exactB.ge⟩, ?_, ?_⟩
  · rw [exactB, EReal.coe_le_coe_iff]
    exact cast
  · rw [exactA, EReal.coe_le_coe_iff]
    exact cast
  · rw [Nat.cast_zero, sub_zero, Binary64.grid_integer, exactA]
  · rw [Nat.cast_zero, add_zero, Binary64.grid_integer, exactB]

/-- If a step of the grid for each operation is less than one, then no other integers are enclosed. -/
theorem Near.between (near : i.Near w a b k) (few : k < 2 ^ w) (fitsLow : Fits w a k) (fitsHigh : Fits w b k) {n : ℤ}
    (encloses : i.Encloses (value (Binary64.ofInt n))) : a ≤ n ∧ n ≤ b := by
  have few : (k : ℤ) < 2 ^ w := by exact_mod_cast few
  have small {m : ℤ} (fits : Fits w m k) : |m| < 2 ^ 53 := by
    have le : m.natAbs ≤ m.natAbs * 2 ^ w := Nat.le_mul_of_pos_right _ (Nat.two_pow_pos w)
    rw [Fits] at fits
    rw [Int.abs_eq_natAbs]
    omega
  have low := near.lower.trans encloses.lower
  have high := encloses.upper.trans near.upper
  -- The neighbours of the integers are read as themselves, and lie too far away.
  constructor
  · by_contra! less
    have below := low.trans (Binary64.value_ofInt_mono (Int.le_sub_one_of_lt less))
    have ⟨least, most⟩ := abs_lt.1 (small fitsLow)
    rw [Binary64.value_ofInt_exact (abs_le.2 ⟨by omega, by omega⟩), ← Binary64.grid_integer (w := w),
      EReal.coe_le_coe_iff, Binary64.grid_strictMono.le_iff_le] at below
    linarith
  · by_contra! more
    have above := (Binary64.value_ofInt_mono (Int.add_one_le_of_lt more)).trans high
    have ⟨least, most⟩ := abs_lt.1 (small fitsHigh)
    rw [Binary64.value_ofInt_exact (abs_le.2 ⟨by omega, by omega⟩), ← Binary64.grid_integer (w := w),
      EReal.coe_le_coe_iff, Binary64.grid_strictMono.le_iff_le] at above
    linarith

/-! ## Sums of many intervals -/

/-- The greater one of two magnitudes. -/
def reach (r : ℤ × ℤ) : ℕ :=
  max r.1.natAbs r.2.natAbs

/-- Each interval of a list has the integers at the same place of another list as its bounds. -/
abbrev NearAll (w : ℕ) (parts : List Interval) (ranges : List (ℤ × ℤ)) : Prop :=
  List.Forall₂ (fun part r => part.Near w r.1 r.2 0) parts ranges

variable {parts : List Interval} {ranges : List (ℤ × ℤ)} {acc : Interval} {M : ℕ}

theorem natAbs_sum_le (ranges : List (ℤ × ℤ)) :
    (ranges.map Prod.fst).sum.natAbs ≤ (ranges.map reach).sum ∧
      (ranges.map Prod.snd).sum.natAbs ≤ (ranges.map reach).sum := by
  induction ranges with
  | nil => simp
  | cons r ranges ih =>
      have low : r.1.natAbs ≤ reach r := le_max_left _ _
      have high : r.2.natAbs ≤ reach r := le_max_right _ _
      simp only [List.map_cons, List.sum_cons]
      omega

theorem natAbs_add_reach (r : ℤ × ℤ) (smallA : a.natAbs ≤ M) (smallB : b.natAbs ≤ M) :
    (a + r.1).natAbs ≤ M + reach r ∧ (b + r.2).natAbs ≤ M + reach r := by
  have low : r.1.natAbs ≤ reach r := le_max_left _ _
  have high : r.2.natAbs ≤ reach r := le_max_right _ _
  omega

theorem near_zero (fine : w ≤ 1000) : (point 0.0).Near w 0 0 0 := by
  have zero : (0.0 : Float) = Binary64.ofInt 0 := by decide +kernel
  rw [zero]
  exact near_ofBounds fine le_rfl (by norm_num) (by norm_num)

theorem near_foldl (all : NearAll w parts ranges) (start : acc.Near w a b k) (smallA : a.natAbs ≤ M)
    (smallB : b.natAbs ≤ M) (fits : (M + (ranges.map reach).sum) * 2 ^ w + (k + parts.length) < 2 ^ 53) :
    (parts.foldl (· + ·) acc).Near w (a + (ranges.map Prod.fst).sum) (b + (ranges.map Prod.snd).sum)
      (k + parts.length) := by
  induction all generalizing acc a b k M with
  | nil => simpa using start
  | @cons part r parts ranges head tail ih =>
      have ⟨low, high⟩ := natAbs_add_reach r smallA smallB
      have count : k + (parts.length + 1) = k + 1 + parts.length := by omega
      simp only [List.map_cons, List.sum_cons, List.length_cons, count] at fits ⊢
      rw [← add_assoc M] at fits
      rw [← add_assoc a, ← add_assoc b]
      have fitsLow : Fits w (a + r.1) (k + 0 + 1) := .of_le fits low (by omega) (by omega)
      have fitsHigh : Fits w (b + r.2) (k + 0 + 1) := .of_le fits high (by omega) (by omega)
      have next := start.add head fitsLow fitsHigh
      rw [Nat.add_zero] at next
      exact ih next low high fits

theorem near_sum (fine : w ≤ 1000) (all : NearAll w parts ranges)
    (fits : (ranges.map reach).sum * 2 ^ w + parts.length < 2 ^ 53) :
    (sum parts).Near w (ranges.map Prod.fst).sum (ranges.map Prod.snd).sum parts.length := by
  have total := near_foldl all (near_zero fine) (M := 0) le_rfl le_rfl (by simpa using fits)
  rwa [zero_add, zero_add, Nat.zero_add] at total

theorem near_sumFromRight (fine : w ≤ 1000) (all : NearAll w parts ranges)
    (fits : (ranges.map reach).sum * 2 ^ w + parts.length < 2 ^ 53) :
    (sumFromRight parts).Near w (ranges.map Prod.fst).sum (ranges.map Prod.snd).sum parts.length := by
  induction all with
  | nil => exact near_zero fine
  | @cons part r parts ranges head tail ih =>
      have ⟨low, high⟩ := natAbs_sum_le (r :: ranges)
      simp only [List.map_cons, List.sum_cons, List.length_cons] at fits low high ⊢
      have fewer : (ranges.map reach).sum * 2 ^ w + parts.length < 2 ^ 53 :=
        (Nat.add_le_add (Nat.mul_le_mul_right _ (Nat.le_add_left _ _)) (Nat.le_succ _)).trans_lt fits
      rw [add_comm r.1, add_comm r.2] at *
      exact (ih fewer).add head (.of_le fits low le_rfl le_rfl) (.of_le fits high le_rfl le_rfl)

/-- Adding the sum of what comes before and the sum of what comes after loses as much as adding all. -/
theorem near_zipWith (all : NearAll w parts ranges) (start : acc.Near w a b k) (smallA : a.natAbs ≤ M)
    (smallB : b.natAbs ≤ M) (fits : (M + (ranges.map reach).sum) * 2 ^ w + (k + parts.length) < 2 ^ 53) :
    List.Forall₂ (fun others r => others.Near w (a + (ranges.map Prod.fst).sum - r.1)
        (b + (ranges.map Prod.snd).sum - r.2) (k + parts.length))
      (List.zipWith (· + ·) (sumsBefore acc parts) (sumsAfter parts)) ranges := by
  induction all generalizing acc a b k M with
  | nil => exact .nil
  | @cons part r parts ranges head tail ih =>
      have ⟨low, high⟩ := natAbs_add_reach r smallA smallB
      have ⟨lowTail, highTail⟩ := natAbs_sum_le ranges
      rw [sumsAfter_cons, sumsBefore, List.zipWith_cons_cons]
      have count : k + (parts.length + 1) = k + 1 + parts.length := by omega
      simp only [List.map_cons, List.sum_cons, List.length_cons, count] at fits ⊢
      rw [← add_assoc M] at fits
      simp only [← add_assoc a, ← add_assoc b]
      have fitsLow : Fits w (a + r.1) (k + 0 + 1) := .of_le fits low (by omega) (by omega)
      have fitsHigh : Fits w (b + r.2) (k + 0 + 1) := .of_le fits high (by omega) (by omega)
      have next := start.add head fitsLow fitsHigh
      rw [Nat.add_zero] at next
      have fewer : (ranges.map reach).sum * 2 ^ w + parts.length < 2 ^ 53 :=
        (Nat.add_le_add (Nat.mul_le_mul_right _ (Nat.le_add_left _ _)) (by omega)).trans_lt fits
      refine .cons ?_ ?_
      · have fitsLow : Fits w (a + (ranges.map Prod.fst).sum) (k + parts.length + 1) :=
          .of_le (M := M + (ranges.map reach).sum) fits (by omega) (by omega) (by omega)
        have fitsHigh : Fits w (b + (ranges.map Prod.snd).sum) (k + parts.length + 1) :=
          .of_le (M := M + (ranges.map reach).sum) fits (by omega) (by omega) (by omega)
        have others := start.add (near_sumFromRight start.fine tail fewer) fitsLow fitsHigh
        rwa [← Nat.add_right_comm,
          show a + r.1 + (ranges.map Prod.fst).sum - r.1 = a + (ranges.map Prod.fst).sum by ring,
          show b + r.2 + (ranges.map Prod.snd).sum - r.2 = b + (ranges.map Prod.snd).sum by ring]
      · exact ih next low high fits

theorem near_sumsOfOthers (fine : w ≤ 1000) (all : NearAll w parts ranges)
    (fits : (ranges.map reach).sum * 2 ^ w + parts.length < 2 ^ 53) :
    List.Forall₂ (fun others r => others.Near w ((ranges.map Prod.fst).sum - r.1)
      ((ranges.map Prod.snd).sum - r.2) parts.length) (sumsOfOthers parts) ranges := by
  have others := near_zipWith all (near_zero fine) (M := 0) le_rfl le_rfl (by simpa using fits)
  simpa only [zero_add, sumsOfOthers] using others

end Interval

end StatBounds
