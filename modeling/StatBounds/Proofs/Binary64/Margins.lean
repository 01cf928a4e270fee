import StatBounds.Proofs.Binary64.Extended

/-! # Margins of rounding

A step to the next number leads past an exact result by a fixed part of it, and what rounding loses is a fixed part
of the result, unless that is very small. So a few steps make up for what was rounded away before.
-/

namespace StatBounds.Binary64

/-- The least positive number. -/
noncomputable def tiny : ℝ := 2 ^ (-1074 : ℤ)

/-- Half of a unit in the last place, for a significand with all bits set. -/
noncomputable def margin : ℝ := 2 ^ (-54 : ℤ)

theorem tiny_pos : 0 < tiny := by
  unfold tiny
  positivity

theorem margin_pos : 0 < margin := by
  unfold margin
  positivity

theorem two_margin : 2 * margin = 1 / 2 ^ 53 := by
  rw [margin]
  norm_num

/-- Numbers above zero are not smaller than the least one. -/
theorem tiny_le {x : Float} (positive : 0 < value x) : (tiny : EReal) ≤ value x := by
  have canonical : Canonical x.toModel.unpack := canonical_unpack _
  change 0 < valueOf x.toModel.unpack at positive
  change (tiny : EReal) ≤ valueOf x.toModel.unpack
  generalize x.toModel.unpack = u at canonical positive ⊢
  rcases u with (_ | _) | _ | _ | ⟨_ | _, m, e, some⟩
  · exact absurd positive (by simp [valueOf])
  · exact le_top
  · exact absurd positive (lt_irrefl (0 : EReal))
  · exact absurd positive (lt_irrefl (0 : EReal))
  · have := magnitude_pos e some
    rw [valueOf_finite_negative, EReal.coe_pos] at positive
    linarith
  · obtain ⟨-, least, -, -⟩ := canonical
    rw [valueOf_finite_positive, EReal.coe_le_coe_iff, tiny]
    have one : (1 : ℝ) ≤ m := by exact_mod_cast some
    calc (2 : ℝ) ^ (-1074 : ℤ) ≤ 2 ^ e := zpow_le_zpow_right₀ (by norm_num) least
      _ ≤ m * 2 ^ e := le_mul_of_one_le_left (by positivity) one

/-- What is rounded lies between zero and a number if the exact result does. -/
theorem IsRounding.exists_real {r w : ℝ} {x y : Float} (rounding : IsRounding r x) (nonneg : 0 ≤ r)
    (number : IsNumber y) (finite : value y = w) (le : r ≤ w) : ∃ v : ℝ, value x = v ∧ 0 ≤ v ∧ v ≤ w := by
  have self : Rounds w y := finite ▸ rounds_self number
  have low : 0 ≤ value x := rounding.rounds.nonneg (EReal.coe_nonneg.2 nonneg)
  have high : value x ≤ w := finite ▸ rounding.rounds.mono self (EReal.coe_le_coe_iff.2 le)
  have real := EReal.coe_toReal (high.trans_lt (EReal.coe_lt_top w)).ne (EReal.bot_lt_zero.trans_le low).ne'
  rw [← real, EReal.coe_nonneg] at low
  rw [← real, EReal.coe_le_coe_iff] at high
  exact ⟨_, real.symm, low, high⟩

theorem half_unit_le {r : ℝ} {t : ℤ} (normal : 2 ^ 52 * (2 : ℝ) ^ t ≤ r) :
    (2 : ℝ) ^ t / 2 ≤ r * (2 * margin) := by
  calc (2 : ℝ) ^ t / 2 = 2 ^ 52 * 2 ^ t * (2 * margin) := by
        rw [margin]
        norm_num
        ring
    _ ≤ r * (2 * margin) := mul_le_mul_of_nonneg_right normal (by linarith [margin_pos])

/-- What is rounded to a finite number is rounded to a multiple of a unit. -/
theorem IsRounding.exists_rounded {r : ℝ} {x : Float} (rounding : IsRounding r x) (positive : 0 < r)
    (bounded : value x ≠ ⊤) : ∃ (q : ℕ) (t : ℤ), Rounded r q t ∧ value x = ((q * 2 ^ t : ℝ) : EReal) := by
  generalize reading : value x = v at bounded
  have nearest := rounding.nearest
  rw [reading] at nearest
  cases nearest with
  | zero => exact absurd positive (lt_irrefl 0)
  | negative negative _ => linarith
  | @positive _ q t _ rounded =>
      refine ⟨q, t, rounded, ?_⟩
      unfold clip at bounded ⊢
      split_ifs at bounded ⊢
      · rfl
      · exact absurd rfl bounded

theorem IsRounding.value_zero {x : Float} (rounding : IsRounding 0 x) : value x = 0 := by
  refine le_antisymm ?_ (rounding.rounds.nonneg le_rfl)
  rw [← Binary64.value_zero]
  exact rounding.rounds.mono rounds_zero le_rfl

/-- The number after a rounded one exceeds the exact result by more than a small part of it. -/
theorem IsRounding.le_next_margin {r : ℝ} {x : Float} (rounding : IsRounding r x) (nonneg : 0 ≤ r) :
    ((r * (1 + margin) : ℝ) : EReal) ≤ value (next x) := by
  rcases eq_or_lt_of_le nonneg with rfl | positive
  · rw [zero_mul]
    exact rounding.le_next
  by_cases top : value x = ⊤
  · rw [next_top rounding.isNumber top, top]
    exact le_top
  obtain ⟨-, above⟩ := value_lt_next rounding.isNumber top
  obtain ⟨q, t, rounded, same⟩ := rounding.exists_rounded positive top
  refine le_trans (EReal.coe_le_coe_iff.2 ?_) (rounded.succ_le (canonical_unpack _) (same ▸ above))
  have small : r * margin ≤ 2 ^ t / 2 := by
    calc r * margin ≤ 2 ^ 53 * 2 ^ t * margin := by
          gcongr
          · exact margin_pos.le
          · exact rounded.bound.le
      _ = 2 ^ t / 2 := by
          rw [margin]
          norm_num
          ring
  linarith [rounded.near.2]

/-- What rounding loses of a result is at most twice that part, unless the result is very small. -/
theorem IsRounding.le_margin {r : ℝ} {x : Float} (rounding : IsRounding r x) (positive : 0 < r) :
    r ≤ 2 ^ (-1021 : ℤ) ∨ (r : EReal) ≤ value x * ((1 + 2 * margin : ℝ) : EReal) := by
  obtain ⟨number, nearest⟩ := rounding
  generalize reading : value x = v at nearest
  cases nearest with
  | zero => exact absurd positive (lt_irrefl 0)
  | negative negative _ => linarith
  | @positive _ q t _ rounded =>
      unfold clip
      split_ifs
      · rcases eq_or_lt_of_le rounded.low with rfl | normal
        · left
          calc r ≤ 2 ^ 53 * 2 ^ (-1074 : ℤ) := rounded.bound.le
            _ = 2 ^ (-1021 : ℤ) := by
              rw [← zpow_natCast, ← zpow_add₀ (by norm_num)]
              norm_num
        · right
          have leading : (2 : ℝ) ^ 52 ≤ q := by exact_mod_cast rounded.normal_le normal
          have half : (2 : ℝ) ^ t / 2 ≤ q * 2 ^ t * (2 * margin) := half_unit_le (by gcongr)
          rw [← EReal.coe_mul, EReal.coe_le_coe_iff]
          linarith [rounded.near.2]
      · right
        have := margin_pos
        rw [EReal.top_mul_coe_of_pos (by linarith)]
        exact le_top

theorem Rounds.le_next_margin {e : EReal} {x : Float} (rounds : Rounds e x) (nonneg : 0 ≤ e) :
    e * ((1 + margin : ℝ) : EReal) ≤ value (next x) := by
  obtain ⟨number, nearest⟩ := rounds
  generalize same : value x = v at nearest
  cases nearest with
  | bot => exact absurd nonneg (by simp)
  | top =>
      rw [next_top number same, same]
      exact le_top
  | real nearest =>
      rw [← EReal.coe_mul]
      exact IsRounding.le_next_margin ⟨number, same ▸ nearest⟩ (EReal.coe_nonneg.1 nonneg)

/-! ## Distances -/

/-- A finite number is a multiple of the least positive one. -/
theorem exists_eq_mul_tiny {x : Float} {r : ℝ} (finite : value x = r) : ∃ k : ℤ, r = k * tiny := by
  have canonical : Canonical x.toModel.unpack := canonical_unpack _
  change valueOf x.toModel.unpack = r at finite
  generalize x.toModel.unpack = u at canonical finite
  rcases u with (_ | _) | _ | _ | ⟨_ | _, m, e, some⟩
  · exact absurd finite (EReal.bot_ne_coe r)
  · exact absurd finite (EReal.top_ne_coe r)
  · exact ⟨0, by simpa [valueOf] using finite.symm⟩
  · exact ⟨0, by simpa [valueOf] using finite.symm⟩
  · obtain ⟨-, least, -, -⟩ := canonical
    obtain ⟨k, multiple⟩ := multiple_of_unit (m := m) least
    rw [valueOf_finite_negative, EReal.coe_eq_coe_iff, multiple] at finite
    exact ⟨-k, by rw [← finite, tiny]; push_cast; ring⟩
  · obtain ⟨-, least, -, -⟩ := canonical
    obtain ⟨k, multiple⟩ := multiple_of_unit (m := m) least
    rw [valueOf_finite_positive, EReal.coe_eq_coe_iff, multiple] at finite
    exact ⟨k, by rw [← finite, tiny, Int.cast_natCast]⟩

theorem exists_sub_eq_mul_tiny {x y : Float} {r s : ℝ} (finiteX : value x = r) (finiteY : value y = s) :
    ∃ k : ℤ, r - s = k * tiny := by
  obtain ⟨k, rfl⟩ := exists_eq_mul_tiny finiteX
  obtain ⟨l, rfl⟩ := exists_eq_mul_tiny finiteY
  exact ⟨k - l, by rw [Int.cast_sub, sub_mul]⟩

/-- Multiples of the least number that are in the wrong order are at least that number apart. -/
theorem le_of_lt_add_tiny {r s : ℝ} (multipleR : ∃ k : ℤ, r = k * tiny) (multipleS : ∃ k : ℤ, s = k * tiny)
    (less : r < s + tiny) : r ≤ s := by
  have positive := tiny_pos
  obtain ⟨k, rfl⟩ := multipleR
  obtain ⟨l, rfl⟩ := multipleS
  have less : (k : ℝ) < l + 1 := lt_of_mul_lt_mul_right (by linarith) positive.le
  have le : k ≤ l := Int.lt_add_one_iff.1 (by exact_mod_cast less)
  exact mul_le_mul_of_nonneg_right (by exact_mod_cast le) positive.le

/-- Rounding moves a result by half of the last unit at most. A multiple of the least number only moves if the result
    has a leading bit. -/
theorem IsRounding.near {r v : ℝ} {x : Float} (rounding : IsRounding r x) (nonneg : 0 ≤ r) (finite : value x = v) :
    |v - r| ≤ r * (2 * margin) + tiny / 2 ∧ ((∃ k : ℤ, r = k * tiny) → |v - r| ≤ r * (2 * margin)) := by
  have some : 0 ≤ r * (2 * margin) := mul_nonneg nonneg (by linarith [margin_pos])
  have least := tiny_pos
  rcases eq_or_lt_of_le nonneg with rfl | positive
  · have same : value x = ((0 : ℝ) : EReal) := rounding.value_zero
    obtain rfl : v = 0 := EReal.coe_eq_coe_iff.1 (finite.symm.trans same)
    rw [sub_self, abs_zero]
    exact ⟨by linarith, fun _ => some⟩
  obtain ⟨q, t, rounded, same⟩ := rounding.exists_rounded positive (by simp [finite])
  obtain rfl : v = q * 2 ^ t := EReal.coe_eq_coe_iff.1 (finite.symm.trans same)
  have near : |q * (2 : ℝ) ^ t - r| ≤ 2 ^ t / 2 := abs_le.2 ⟨by linarith [rounded.near.2], by linarith [rounded.near.1]⟩
  rcases rounded.normal with normal | rfl
  · have half := near.trans (half_unit_le normal)
    exact ⟨by linarith, fun _ => half⟩
  · refine ⟨near.trans (by rw [tiny]; linarith), fun ⟨k, multiple⟩ => ?_⟩
    lift k to ℕ using by
      rw [multiple] at nonneg
      exact_mod_cast nonneg_of_mul_nonneg_left nonneg least
    rw [rounded.exact multiple, sub_self, abs_zero]
    exact some

end StatBounds.Binary64
