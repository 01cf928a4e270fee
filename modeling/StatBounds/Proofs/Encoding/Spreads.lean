import StatBounds.Proofs.Interval.Products

/-! # How far numbers can spread

The sum of the squared deviations of numbers from a range is greatest if every number is at an end of the range, half
of them at each. A square grows faster and faster, so a single number can be moved to one of the ends without making
the sum smaller.
-/

namespace StatBounds

/-! ## Statistics of real numbers -/

/-- The mean of numbers. -/
noncomputable def average (xs : List ℝ) : ℝ :=
  xs.sum / xs.length

/-- The sum of the squared deviations from the mean. -/
noncomputable def deviation (xs : List ℝ) : ℝ :=
  (xs.map fun x => (x - average xs) * (x - average xs)).sum

/-- The sample variance. -/
noncomputable def spread (xs : List ℝ) : ℝ :=
  deviation xs / (xs.length - 1)

variable {xs : List ℝ} {a b : ℝ}

theorem le_average (some : 0 < xs.length) (low : ∀ x ∈ xs, a ≤ x) : a ≤ average xs := by
  have positive : (0 : ℝ) < xs.length := by exact_mod_cast some
  have least := List.card_nsmul_le_sum xs a low
  rw [nsmul_eq_mul] at least
  rw [average, le_div_iff₀ positive]
  linarith

theorem average_le (some : 0 < xs.length) (high : ∀ x ∈ xs, x ≤ b) : average xs ≤ b := by
  have positive : (0 : ℝ) < xs.length := by exact_mod_cast some
  have greatest := List.sum_le_card_nsmul xs b high
  rw [nsmul_eq_mul] at greatest
  rw [average, div_le_iff₀ positive]
  linarith

theorem deviation_nonneg : 0 ≤ deviation xs := by
  refine List.sum_nonneg fun y member => ?_
  obtain ⟨x, -, rfl⟩ := List.mem_map.1 member
  exact mul_self_nonneg _

theorem spread_nonneg (two : 2 ≤ xs.length) : 0 ≤ spread xs := by
  have : (2 : ℝ) ≤ xs.length := by exact_mod_cast two
  exact div_nonneg deviation_nonneg (by linarith)

/-- The deviations around the mean are those around any other number, less the distance of the two. -/
theorem length_mul_deviation (some : 0 < xs.length) (c : ℝ) :
    xs.length * deviation xs =
      xs.length * (xs.map fun x => (x - c) * (x - c)).sum - (xs.map fun x => x - c).sum ^ 2 := by
  have expand (m : ℝ) (ys : List ℝ) : (ys.map fun x => (x - m) * (x - m)).sum =
      (ys.map fun x => (x - c) * (x - c)).sum - 2 * (m - c) * (ys.map fun x => x - c).sum +
        ys.length * (m - c) ^ 2 := by
    induction ys with
    | nil => simp
    | cons y ys ih =>
        simp only [List.map_cons, List.sum_cons, List.length_cons, ih]
        push_cast
        ring
  have shifted (ys : List ℝ) : (ys.map fun x => x - c).sum = ys.sum - ys.length * c := by
    induction ys with
    | nil => simp
    | cons y ys ih =>
        simp only [List.map_cons, List.sum_cons, List.length_cons, ih]
        push_cast
        ring
  have positive : (xs.length : ℝ) ≠ 0 := by exact_mod_cast some.ne'
  have center : xs.length * (average xs - c) = (xs.map fun x => x - c).sum := by
    rw [shifted, average]
    field_simp
  rw [deviation, expand, ← center]
  ring

/-! ## The greatest spread -/

/-- Moving every number of a list to one of the ends of its range makes what is left of a spread no smaller, whatever
    numbers come before them. Some of the numbers end at the upper end. -/
theorem exists_ends {width : ℝ} (ds : List ℝ) (n : ℕ) (more : 1 ≤ n) (inside : ∀ d ∈ ds, 0 ≤ d ∧ d ≤ width) (s q : ℝ) :
    ∃ k ≤ ds.length, n * (q + (ds.map fun d => d * d).sum) - (s + ds.sum) ^ 2 ≤
      n * (q + k * width ^ 2) - (s + k * width) ^ 2 := by
  induction ds generalizing s q with
  | nil => exact ⟨0, le_rfl, by simp⟩
  | cons d ds ih =>
      obtain ⟨⟨nonneg, le⟩, others⟩ := List.forall_mem_cons.1 inside
      obtain ⟨k, few, bound⟩ := ih others (s + d) (q + d * d)
      have size : (1 : ℝ) ≤ n := by exact_mod_cast more
      have square : (n - 1) * (d * d) ≤ (n - 1) * (d * width) := by gcongr
      simp only [List.map_cons, List.sum_cons, List.length_cons, ← add_assoc] at bound ⊢
      -- What the number adds is a convex function of it, so it is largest at an end.
      rcases le_total ((n - 1) * width - 2 * (s + k * width)) 0 with falling | rising
      · refine ⟨k, few.trans (Nat.le_succ _), bound.trans ?_⟩
        nlinarith [mul_nonneg nonneg (neg_nonneg.2 falling)]
      · refine ⟨k + 1, Nat.succ_le_succ few, bound.trans ?_⟩
        push_cast
        nlinarith [mul_nonneg (sub_nonneg.2 le) rising]

/-- The products of two numbers with a given sum are greatest for the two halves. -/
theorem mul_sub_le_halves {n k : ℕ} (le : k ≤ n) : k * (n - k) ≤ n / 2 * (n - n / 2) := by
  obtain ⟨l, rfl⟩ := Nat.exists_eq_add_of_le le
  obtain ⟨h, even | odd⟩ := Nat.even_or_odd' (k + l)
  · have half : (k + l) / 2 = h := by omega
    rw [half, Nat.add_sub_cancel_left, show k + l - h = h by omega]
    zify at *
    nlinarith [sq_nonneg ((k : ℤ) - l)]
  · have half : (k + l) / 2 = h := by omega
    rw [half, Nat.add_sub_cancel_left, show k + l - h = h + 1 by omega]
    zify at *
    rcases le_or_gt (k : ℤ) h with small | large
    · nlinarith
    · nlinarith

theorem spread_le (two : 2 ≤ xs.length) (low : ∀ x ∈ xs, a ≤ x) (high : ∀ x ∈ xs, x ≤ b) :
    spread xs ≤ ((xs.length / 2 : ℕ) * (xs.length - xs.length / 2 : ℕ) : ℝ) /
      (xs.length * (xs.length - 1)) * (b - a) ^ 2 := by
  have size : (2 : ℝ) ≤ xs.length := by exact_mod_cast two
  have inside : ∀ d ∈ xs.map fun x => x - a, 0 ≤ d ∧ d ≤ b - a := by
    intro d member
    obtain ⟨x, listed, rfl⟩ := List.mem_map.1 member
    exact ⟨sub_nonneg.2 (low x listed), sub_le_sub_right (high x listed) a⟩
  obtain ⟨k, few, bound⟩ := exists_ends _ xs.length (by omega) inside 0 0
  rw [List.length_map] at few
  have halves : ((k * (xs.length - k) : ℕ) : ℝ) ≤ (xs.length / 2 * (xs.length - xs.length / 2) : ℕ) := by
    exact_mod_cast mul_sub_le_halves few
  have deviations : xs.length * deviation xs ≤
      ((xs.length / 2 : ℕ) * (xs.length - xs.length / 2 : ℕ) : ℝ) * (b - a) ^ 2 := by
    calc xs.length * deviation xs ≤ xs.length * (k * (b - a) ^ 2) - (k * (b - a)) ^ 2 := by
          rw [length_mul_deviation (by omega) a]
          simpa only [List.map_map, Function.comp_def, zero_add] using bound
      _ = (k * (xs.length - k) : ℕ) * (b - a) ^ 2 := by
          rw [Nat.cast_mul, Nat.cast_sub few]
          ring
      _ ≤ _ := by
          rw [← Nat.cast_mul]
          gcongr
  rw [spread, div_mul_eq_mul_div, div_le_div_iff₀ (by linarith) (by nlinarith)]
  have nonneg : 0 ≤ deviation xs := deviation_nonneg
  nlinarith

end StatBounds
