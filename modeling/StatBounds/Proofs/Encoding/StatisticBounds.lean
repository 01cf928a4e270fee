import StatBounds.Encoding.Statistic
import StatBounds.Proofs.Encoding.Spreads
import StatBounds.Proofs.Store.Reachability

/-! # Bounds of statistics

A new variable for a statistic gets bounds that are computed from the hull of the observations. The computation
rounds, the width of the hull even inwards. But every later operation moves its bounds outwards by a whole number, and
that is enough to make up for the width. So the bounds enclose the exact statistic.
-/

namespace StatBounds

open Binary64 (IsNumber value IsRounding Rounds margin tiny)

/-! ## Small integers -/

namespace Binary64

/-- A small integer is its own rounding. -/
theorem IsRounding.value_eq_int {n : Int} {x : Float} (rounding : IsRounding (n : ℝ) x) (small : |n| ≤ 2 ^ 53) :
    value x = ((n : ℝ) : EReal) := by
  have exact' := value_ofInt_exact small
  have own : Rounds ((n : ℝ) : EReal) (ofInt n) := exact' ▸ rounds_self (isNumber_ofInt n)
  rw [← exact']
  exact le_antisymm (rounding.rounds.mono own le_rfl) (own.mono rounding.rounds le_rfl)

theorem isNumber_ofNat (n : Nat) : IsNumber (ofNat n) :=
  isNumber_ofInt n

theorem value_ofNat {n : Nat} (small : n ≤ 2 ^ 53) : value (ofNat n) = ((n : ℝ) : EReal) := by
  have bound : |(n : Int)| ≤ 2 ^ 53 := by
    rw [Nat.abs_cast]
    exact_mod_cast small
  exact value_ofInt_exact bound

/-- Products of small integers are exact. -/
theorem value_mul_nat {x y : Float} (numberX : IsNumber x) (numberY : IsNumber y) {m n : Nat}
    (valueX : value x = ((m : ℝ) : EReal)) (valueY : value y = ((n : ℝ) : EReal)) (small : m * n ≤ 2 ^ 53) :
    IsNumber (x * y) ∧ value (x * y) = (((m * n : ℕ) : ℝ) : EReal) := by
  have rounding := isRounding_mul numberX numberY valueX valueY
  have bound : |((m * n : ℕ) : Int)| ≤ 2 ^ 53 := by
    rw [Nat.abs_cast]
    exact_mod_cast small
  have product : IsRounding (((m * n : ℕ) : Int) : ℝ) (x * y) := by
    push_cast
    exact rounding
  exact ⟨rounding.isNumber, by exact_mod_cast product.value_eq_int bound⟩

/-- One less than a small integer is exact. -/
theorem value_ofNat_sub_one {n : Nat} (positive : 1 ≤ n) (small : n ≤ 2 ^ 53) :
    IsNumber (ofNat n - 1.0) ∧ value (ofNat n - 1.0) = (((n - 1 : ℕ) : ℝ) : EReal) := by
  have rounding := isRounding_sub (isNumber_ofNat n) isNumber_one (value_ofNat small) value_one
  have bound : |((n - 1 : ℕ) : Int)| ≤ 2 ^ 53 := by
    rw [Nat.abs_cast]
    exact_mod_cast (Nat.sub_le n 1).trans small
  have difference : IsRounding (((n - 1 : ℕ) : Int) : ℝ) (ofNat n - 1.0) := by
    push_cast [Nat.cast_sub positive]
    exact rounding
  exact ⟨rounding.isNumber, by exact_mod_cast difference.value_eq_int bound⟩

end Binary64

namespace Interval

/-- The upper bound of a product of upper bounds that is not negative is positive. -/
theorem mul_hi_pos {i j : Interval} (properI : i.Proper) (properJ : j.Proper) (someI : i.isEmpty = false)
    (someJ : j.isEmpty = false) (nonneg : 0 ≤ value i.hi * value j.hi) : 0 < value (i * j).hi := by
  obtain ⟨low, high, -, numberHigh, same, bounds⟩ := exists_bounds_mul properI properJ someI someJ
  have rounded := rounds_boundProduct properI.hi properJ.hi
  have least : 0 ≤ value high := (rounded.nonneg nonneg).trans (bounds _ (by simp) _ (by simp)).2
  rw [same]
  by_cases top : value high = ⊤
  · rw [Binary64.next_top numberHigh top, top]
    exact EReal.zero_lt_top
  · exact least.trans_lt (Binary64.value_lt_next numberHigh top).2

end Interval

/-! ## Variances -/

/-- The part of the squared width of a range that the sample variance of `n` numbers from it can be. -/
noncomputable def greatestPart (n : Nat) : ℝ :=
  ((n / 2 : ℕ) * (n - n / 2 : ℕ) : ℝ) / (n * (n - 1))

theorem greatestPart_pos {n : Nat} (two : 2 ≤ n) : 0 < greatestPart n := by
  have size : (2 : ℝ) ≤ n := by exact_mod_cast two
  have low : (0 : ℝ) < (n / 2 : ℕ) := by exact_mod_cast (by omega : 0 < n / 2)
  have high : (0 : ℝ) < (n - n / 2 : ℕ) := by exact_mod_cast (by omega : 0 < n - n / 2)
  exact div_pos (mul_pos low high) (mul_pos (by linarith) (by linarith))

theorem greatestPart_le_one {n : Nat} (two : 2 ≤ n) : greatestPart n ≤ 1 := by
  have size : (2 : ℝ) ≤ n := by exact_mod_cast two
  have low : ((n / 2 : ℕ) : ℝ) ≤ n - 1 := by
    rw [← Nat.cast_one, ← Nat.cast_sub (by omega)]
    exact_mod_cast (by omega : n / 2 ≤ n - 1)
  have high : ((n - n / 2 : ℕ) : ℝ) ≤ n := by exact_mod_cast Nat.sub_le n (n / 2)
  have nonneg : (0 : ℝ) ≤ (n - n / 2 : ℕ) := Nat.cast_nonneg _
  rw [greatestPart, div_le_one (by nlinarith)]
  nlinarith

/-- The outward steps of three operations, one of which takes two, make up for a width that was rounded inwards. -/
theorem le_of_margins {part width w bound : ℝ} (positive : 0 ≤ part) (nonneg : 0 ≤ width)
    (near : width ≤ w * (1 + 2 * margin))
    (least : part * (1 + margin) * (1 + margin) * (w * w * (1 + margin)) * (1 + margin) ≤ bound) :
    part * width ^ 2 ≤ bound := by
  have := Binary64.margin_pos
  have square : width ^ 2 ≤ (w * (1 + 2 * margin)) ^ 2 := by gcongr
  calc part * width ^ 2 ≤ part * (w * (1 + 2 * margin)) ^ 2 := by gcongr
    _ = part * w ^ 2 * (1 + 2 * margin) ^ 2 := by ring
    _ ≤ part * w ^ 2 * ((1 + margin) ^ 2) ^ 2 := by
        gcongr
        nlinarith
    _ ≤ bound := by linarith

/-- The square of a tiny width is smaller than every positive number. -/
theorem le_tiny_of_width {part width : ℝ} (least : part ≤ 1) (nonneg : 0 ≤ width) (tiny : width ≤ 2 ^ (-1021 : ℤ)) :
    part * width ^ 2 ≤ Binary64.tiny := by
  have square : width ^ 2 ≤ (2 ^ (-1021 : ℤ)) ^ 2 := pow_le_pow_left₀ nonneg tiny 2
  calc part * width ^ 2 ≤ 1 * (2 ^ (-1021 : ℤ)) ^ 2 := mul_le_mul least square (sq_nonneg _) zero_le_one
    _ = 2 ^ (-2042 : ℤ) := by
        rw [one_mul, ← zpow_natCast, ← zpow_mul]
        norm_num
    _ ≤ Binary64.tiny := zpow_le_zpow_right₀ (by norm_num) (by norm_num)

theorem proper_point {x : Float} (number : IsNumber x) :
    (Interval.point x).Proper ∧ (Interval.point x).isEmpty = false ∧ (Interval.point x).lo = x ∧
      (Interval.point x).hi = x := by
  have encloses := Interval.encloses_point x
  have same : Interval.point x = { lo := x, hi := x } := Interval.ofBounds_of_isNumber number number
  exact ⟨encloses.proper, encloses.notEmpty, by rw [same], by rw [same]⟩

/-- What is computed from two factors and a width is at least the exact product with a margin for each step. -/
theorem le_hi_of_factors {a b w : Float} {p q : ℝ} (numberA : IsNumber a) (numberB : IsNumber b) (numberW : IsNumber w)
    (valueA : value a = p) (valueB : value b = q) (nonneg : 0 ≤ p) (positive : 0 < q) (nonnegW : 0 ≤ value w) :
    let bound := (Interval.point a / Interval.point b * (Interval.point w).sqr).hi
    IsNumber bound ∧ 0 < value bound ∧
      ((p / q * (1 + margin) * (1 + margin) : ℝ) : EReal) * (value w * value w * ((1 + margin : ℝ) : EReal)) *
        ((1 + margin : ℝ) : EReal) ≤ value bound := by
  intro bound
  obtain ⟨properA, someA, -, hiA⟩ := proper_point numberA
  obtain ⟨properB, someB, loB, -⟩ := proper_point numberB
  obtain ⟨properW, someW, loW, hiW⟩ := proper_point numberW
  have more : (0 : ℝ) < 1 + margin := by
    have := Binary64.margin_pos
    linarith
  have nonnegMore : (0 : EReal) ≤ ((1 + margin : ℝ) : EReal) := EReal.coe_nonneg.2 more.le
  have quotient : ((p / q * (1 + margin) * (1 + margin) : ℝ) : EReal) ≤
      value (Interval.point a / Interval.point b).hi := by
    have least := Interval.le_div_hi properA properB someA someB (by rw [hiA, valueA]; exact EReal.coe_nonneg.2 nonneg)
      (by rw [loB, valueB]; exact EReal.coe_pos.2 positive)
    rw [hiA, loB, valueA, valueB, ← EReal.coe_inv, ← EReal.coe_mul, ← EReal.coe_mul, ← EReal.coe_mul] at least
    rwa [div_eq_mul_inv, mul_assoc p]
  have square := Interval.le_sqr_hi properW someW (by rwa [loW])
  rw [hiW] at square
  have inQuotient := (Interval.encloses_point a).div (Interval.encloses_point b)
  have inSquare := (Interval.encloses_point w).sqr
  have first : (0 : EReal) ≤ ((p / q * (1 + margin) * (1 + margin) : ℝ) : EReal) := by
    have := div_nonneg nonneg positive.le
    exact EReal.coe_nonneg.2 (by positivity)
  have second : 0 ≤ value w * value w * ((1 + margin : ℝ) : EReal) :=
    EReal.mul_nonneg (EReal.mul_nonneg nonnegW nonnegW) nonnegMore
  have sign := EReal.mul_nonneg (first.trans quotient) (second.trans square)
  refine ⟨(inQuotient.mul inSquare).proper.hi, Interval.mul_hi_pos inQuotient.proper inSquare.proper inQuotient.notEmpty
    inSquare.notEmpty sign, ?_⟩
  calc _ ≤ value (Interval.point a / Interval.point b).hi * value (Interval.point w).sqr.hi *
        ((1 + margin : ℝ) : EReal) := by
        refine mul_le_mul_of_nonneg_right ?_ nonnegMore
        exact (mul_le_mul_of_nonneg_right quotient second).trans
          (mul_le_mul_of_nonneg_left square (first.trans quotient))
    _ ≤ value bound := Interval.le_mul_hi inQuotient.proper inSquare.proper inQuotient.notEmpty inSquare.notEmpty sign

/-- The width of an interval with a real number is infinite, or is the rounded distance of two real bounds. -/
theorem Interval.Encloses.width_cases {i : Interval} {x : ℝ} (encloses : i.Encloses ((x : ℝ) : EReal)) :
    IsNumber i.width ∧ (value i.width = ⊤ ∨
      ∃ a b : ℝ, value i.lo = a ∧ value i.hi = b ∧ a ≤ b ∧ IsRounding (b - a) i.width) := by
  have rounds := encloses.rounds_width
  refine ⟨rounds.isNumber, ?_⟩
  have below : value i.lo ≠ ⊤ := (encloses.lower.trans_lt (EReal.coe_lt_top x)).ne
  have above : value i.hi ≠ ⊥ := ((EReal.bot_lt_coe x).trans_le encloses.upper).ne'
  have infinite (far : value i.hi - value i.lo = ⊤) : value i.width = ⊤ := by
    have top := Binary64.rounds_top Binary64.isNumber_infinity Binary64.value_infinity
    rw [far] at rounds
    exact top_le_iff.1 (Binary64.value_infinity ▸ top.mono rounds le_rfl)
  induction low : value i.lo with
  | top => exact absurd low below
  | bot => exact .inl (infinite (by rw [low, sub_eq_add_neg, EReal.neg_bot, EReal.add_top_of_ne_bot above]))
  | coe a =>
      induction high : value i.hi with
      | bot => exact absurd high above
      | top => exact .inl (infinite (by rw [low, high]; rfl))
      | coe b =>
          refine .inr ⟨a, b, rfl, rfl, ?_, Interval.isRounding_width encloses.proper encloses.notEmpty low high⟩
          exact EReal.coe_le_coe_iff.1 (low ▸ high ▸ encloses.lower.trans encloses.upper)

theorem Interval.Encloses.width_nonneg {i : Interval} {x : ℝ} (encloses : i.Encloses ((x : ℝ) : EReal)) :
    0 ≤ value i.width := by
  rcases encloses.width_cases.2 with top | ⟨a, b, -, -, le, rounding⟩
  · rw [top]
    exact le_top
  · exact rounding.rounds.nonneg (EReal.coe_nonneg.2 (sub_nonneg.2 le))

theorem maxSampleVariance_margins {n : Nat} {w : Float} (two : 2 ≤ n) (few : n < 2 ^ 26) (numberW : IsNumber w)
    (nonnegW : 0 ≤ value w) :
    ∃ bound, maxSampleVariance n w = .ok bound ∧ IsNumber bound ∧ 0 < value bound ∧
      ((greatestPart n * (1 + margin) * (1 + margin) : ℝ) : EReal) * (value w * value w * ((1 + margin : ℝ) : EReal)) *
        ((1 + margin : ℝ) : EReal) ≤ value bound := by
  obtain ⟨numberL, valueL⟩ := Binary64.value_ofNat_sub_one (by omega : 1 ≤ n) (by omega)
  have small : n / 2 * (n - n / 2) ≤ 2 ^ 53 := by
    calc n / 2 * (n - n / 2) ≤ 2 ^ 26 * 2 ^ 26 := Nat.mul_le_mul (by omega) (by omega)
      _ ≤ 2 ^ 53 := by norm_num
  have small' : n * (n - 1) ≤ 2 ^ 53 := by
    calc n * (n - 1) ≤ 2 ^ 26 * 2 ^ 26 := Nat.mul_le_mul (by omega) (by omega)
      _ ≤ 2 ^ 53 := by norm_num
  obtain ⟨numberA, valueA⟩ := Binary64.value_mul_nat (Binary64.isNumber_ofNat (n / 2))
    (Binary64.isNumber_ofNat (n - n / 2)) (Binary64.value_ofNat (by omega)) (Binary64.value_ofNat (by omega)) small
  obtain ⟨numberB, valueB⟩ := Binary64.value_mul_nat (Binary64.isNumber_ofNat n) numberL
    (Binary64.value_ofNat (by omega)) valueL small'
  have positive : (0 : ℝ) < (n * (n - 1) : ℕ) := by
    exact_mod_cast Nat.mul_pos (by omega : 0 < n) (by omega : 0 < n - 1)
  obtain ⟨number, pos, least⟩ :=
    le_hi_of_factors numberA numberB numberW valueA valueB (Nat.cast_nonneg _) positive nonnegW
  have same : ((n / 2 * (n - n / 2) : ℕ) : ℝ) / (n * (n - 1) : ℕ) = greatestPart n := by
    rw [greatestPart, Nat.cast_mul, Nat.cast_mul, Nat.cast_sub (by omega : 1 ≤ n), Nat.cast_one]
  rw [same] at least
  have valid : ¬ (w.isNaN || decide (w < 0.0)) = true := by
    simp only [Bool.or_eq_true, decide_eq_true_eq, not_or, Bool.not_eq_true]
    refine ⟨numberW, ?_⟩
    rwa [Binary64.not_lt_iff numberW Binary64.isNumber_zero, Binary64.value_zero]
  refine ⟨_, ?_, number, pos, least⟩
  rw [maxSampleVariance, if_neg (by omega), if_neg valid]

/-- The bound that is computed for the sample variance of some numbers is one. -/
theorem exists_maxSampleVariance {hull : Interval} {xs : List ℝ} (two : 2 ≤ xs.length) (few : xs.length < 2 ^ 26)
    (inside : ∀ x ∈ xs, hull.Encloses ((x : ℝ) : EReal)) :
    ∃ bound, maxSampleVariance xs.length hull.width = .ok bound ∧ IsNumber bound ∧
      ((spread xs : ℝ) : EReal) ≤ value bound := by
  obtain ⟨x, member⟩ := List.exists_mem_of_length_pos (by omega : 0 < xs.length)
  obtain ⟨numberW, cases⟩ := (inside x member).width_cases
  have nonnegW := (inside x member).width_nonneg
  obtain ⟨bound, computed, number, positive, least⟩ := maxSampleVariance_margins two few numberW nonnegW
  refine ⟨bound, computed, number, ?_⟩
  have part := greatestPart_pos two
  have := Binary64.margin_pos
  induction reading : value hull.width with
  | bot => exact absurd nonnegW (by simp [reading])
  | top =>
      rw [reading, EReal.top_mul_top, EReal.top_mul_coe_of_pos (by linarith), EReal.coe_mul_top_of_pos (by positivity),
        EReal.top_mul_coe_of_pos (by linarith), top_le_iff] at least
      rw [least]
      exact le_top
  | coe w =>
      obtain ⟨a, b, low, high, le, rounding⟩ := cases.resolve_left (by simp [reading])
      have inRange (y : ℝ) (member : y ∈ xs) : a ≤ y ∧ y ≤ b := by
        have lower := (inside y member).lower
        have upper := (inside y member).upper
        rw [low, EReal.coe_le_coe_iff] at lower
        rw [high, EReal.coe_le_coe_iff] at upper
        exact ⟨lower, upper⟩
      have spreads : spread xs ≤ greatestPart xs.length * (b - a) ^ 2 :=
        spread_le two (fun y member => (inRange y member).1) fun y member => (inRange y member).2
      have near : b - a ≤ 2 ^ (-1021 : ℤ) ∨ b - a ≤ w * (1 + 2 * margin) := by
        rcases eq_or_lt_of_le (sub_nonneg.2 le) with none | some
        · left
          rw [← none]
          positivity
        · refine (rounding.le_margin some).imp_right fun near => ?_
          rwa [reading, ← EReal.coe_mul, EReal.coe_le_coe_iff] at near
      -- A width that underflows has no relative error bound, but then any positive bound will do.
      rcases near with tiny | near
      · refine le_trans (EReal.coe_le_coe_iff.2 ?_) (Binary64.tiny_le positive)
        exact spreads.trans (le_tiny_of_width (greatestPart_le_one two) (sub_nonneg.2 le) tiny)
      · rw [reading, ← EReal.coe_mul, ← EReal.coe_mul, ← EReal.coe_mul, ← EReal.coe_mul] at least
        refine le_trans (EReal.coe_le_coe_iff.2 ?_) least
        exact spreads.trans (le_of_margins part.le (sub_nonneg.2 le) near le_rfl)

/-! ## Standard errors and means -/

/-- The bound that is computed for the standard error is one if the variance is bounded. -/
theorem le_maxStandardError {n : Nat} {v : ℝ} {greatest : Float} (positive : 1 ≤ n) (few : n < 2 ^ 26) (nonneg : 0 ≤ v)
    (le : ((v : ℝ) : EReal) ≤ value greatest) :
    IsNumber (maxStandardError n greatest) ∧ ((√(v / n) : ℝ) : EReal) ≤ value (maxStandardError n greatest) := by
  have size : (0 : ℝ) < n := by exact_mod_cast positive
  have sizeE : (0 : EReal) ≤ ((n : ℝ) : EReal) := EReal.coe_nonneg.2 size.le
  have encloses := (Interval.encloses_point greatest).div (Interval.encloses_point (Binary64.ofNat n))
  rw [Binary64.value_ofNat (by omega)] at encloses
  have upper : ((v / n : ℝ) : EReal) ≤ value (Interval.point greatest / Interval.point (Binary64.ofNat n)).hi := by
    rw [EReal.coe_div]
    exact (EReal.div_le_div_right_of_nonneg sizeE le).trans encloses.upper
  have quotient : 0 ≤ value greatest / ((n : ℝ) : EReal) :=
    EReal.div_nonneg ((EReal.coe_nonneg.2 nonneg).trans le) sizeE
  have roots := encloses.intersect (j := .nonNegative)
    ⟨Interval.proper_nonNegative, by simpa [Interval.nonNegative] using quotient, by simp [Interval.nonNegative]⟩
  refine ⟨?_, Interval.sqrt_le_hi encloses.proper roots.notEmpty (div_nonneg nonneg size.le) upper⟩
  have proper (i : Interval) : i.sqrt.Proper := by
    unfold Interval.sqrt
    dsimp only
    split_ifs
    · exact Interval.proper_empty
    · exact Interval.proper_ofBounds _ _
  exact (proper _).hi

theorem Interval.encloses_average {i : Interval} {xs : List ℝ} (some : 0 < xs.length)
    (inside : ∀ x ∈ xs, i.Encloses ((x : ℝ) : EReal)) : i.Encloses ((average xs : ℝ) : EReal) := by
  obtain ⟨x, member⟩ := List.exists_mem_of_length_pos some
  refine ⟨(inside x member).proper, ?_, ?_⟩
  · induction low : value i.lo with
    | bot => exact bot_le
    | top => exact absurd (inside x member).lower (by simp [low])
    | coe a =>
        refine EReal.coe_le_coe_iff.2 (le_average some fun y member => EReal.coe_le_coe_iff.1 ?_)
        exact low ▸ (inside y member).lower
  · induction high : value i.hi with
    | top => exact le_top
    | bot => exact absurd (inside x member).upper (by simp [high])
    | coe b =>
        refine EReal.coe_le_coe_iff.2 (average_le some fun y member => EReal.coe_le_coe_iff.1 ?_)
        exact high ▸ (inside y member).upper

theorem Store.encloses_observationHull {store : Store} {vs : List Var} (proper : ∀ v ∈ vs, (store.vars.bounds v).Proper)
    {v : Var} (member : v ∈ vs) {x : EReal} (encloses : (store.vars.bounds v).Encloses x) :
    (observationHull vs store).Encloses x := by
  have fold (acc : Interval) (properAcc : acc.Proper) (vs : List Var)
      (proper : ∀ v ∈ vs, (store.vars.bounds v).Proper) :
      let hull := vs.foldl (fun hull v => hull.hull (store.vars.bounds v)) acc
      (acc.Encloses x → hull.Encloses x) ∧ ∀ v ∈ vs, (store.vars.bounds v).Encloses x → hull.Encloses x := by
    induction vs generalizing acc with
    | nil => exact ⟨id, by simp⟩
    | cons w vs ih =>
        obtain ⟨first, others⟩ := List.forall_mem_cons.1 proper
        obtain ⟨kept, each⟩ := ih (acc.hull (store.vars.bounds w)) (Interval.proper_hull properAcc first) others
        refine ⟨fun inAcc => kept (inAcc.hull_left first), List.forall_mem_cons.2 ⟨fun here => ?_, each⟩⟩
        exact kept (here.hull_right properAcc)
  exact (fold .empty Interval.proper_empty vs proper).2 v member encloses

/-! ## Observations -/

/-- The bound of the sample variance of observations is found, and it bounds the spread of any numbers in their hull. -/
theorem Store.exists_varianceBound {store : Store} {vs : List Var} {xs : List ℝ} (length : xs.length = vs.length)
    (two : 2 ≤ vs.length) (few : vs.length < 2 ^ 26)
    (inside : ∀ x ∈ xs, (observationHull vs store).Encloses ((x : ℝ) : EReal)) :
    ∃ greatest, varianceBound vs store = .ok greatest store ∧ IsNumber greatest ∧
      ((spread xs : ℝ) : EReal) ≤ value greatest := by
  obtain ⟨greatest, computed, number, bound⟩ := exists_maxSampleVariance (by omega) (by omega) inside
  obtain ⟨x, member⟩ := List.exists_mem_of_length_pos (by omega : 0 < xs.length)
  refine ⟨greatest, ?_, number, bound⟩
  rw [length] at computed
  simp [varianceBound, Bind.bind, EStateM.bind, get, getThe, MonadStateOf.get, EStateM.get, (inside x member).notEmpty,
    computed, orFail, pure, EStateM.pure]

/-- The bounds of the sample variance and of the standard error of observations are ones, whatever numbers in their hull
    the observations are. -/
theorem Store.varianceBound_bounds_spread (store : Store) (vs : List Var) (xs : List ℝ) (length : xs.length = vs.length)
    (two : 2 ≤ vs.length) (few : vs.length < 2 ^ 26)
    (inside : ∀ x ∈ xs, (observationHull vs store).Encloses ((x : ℝ) : EReal)) :
    ∃ greatest, varianceBound vs store = .ok greatest store ∧ IsNumber greatest ∧
      ((spread xs : ℝ) : EReal) ≤ value greatest ∧ IsNumber (maxStandardError vs.length greatest) ∧
      ((√(spread xs / vs.length) : ℝ) : EReal) ≤ value (maxStandardError vs.length greatest) := by
  obtain ⟨greatest, found, number, bound⟩ := exists_varianceBound length two few inside
  exact ⟨greatest, found, number, bound, le_maxStandardError (by omega) few (spread_nonneg (by omega)) bound⟩

/-- The width of a range from just below zero to one is rounded to one. Its ends still spread no more than the bound. -/
theorem varianceBound_bounds_spread_rounded_width : ∃ (store : Store) (greatest : Float), Reachable [] store ∧
    (Store.observationHull [⟨0⟩, ⟨1⟩] store).width = 1.0 ∧
    Store.varianceBound [⟨0⟩, ⟨1⟩] store = .ok greatest store ∧
    (((1 + margin) ^ 2 / 2 : ℝ) : EReal) ≤ value greatest := by
  let lo := -Float.ofBits 0x3C90000000000000
  let range : Domain := .real { interval := .ofBounds lo 1.0, precision := 0.5 }
  let one := Store.fresh.extended "x" range
  let two := one.extended "y" range
  have unpacked : (Float.ofBits 0x3C90000000000000).toModel.unpack =
      .finite .positive (2 ^ 52) (-106) (by decide) := by rfl
  have least : value lo = ((-margin : ℝ) : EReal) := by
    rw [Binary64.value_neg, value, unpacked, Binary64.valueOf_finite_positive, margin, EReal.coe_neg]
    norm_num
  have precise : checkPrecision 0.5 = .ok () := by decide +kernel
  have number : IsNumber lo := Binary64.isNumber_neg.2 (by rfl)
  have ordered : ¬ (1.0 : Float) < lo := by decide +kernel
  have first : Reachable [] one := by
    refine Store.reachable_extended_real Store.reachable_fresh precise number Binary64.isNumber_one ordered ?_
    simp [Store.fresh, Variables.empty]
  have reachable : Reachable [] two := by
    refine Store.reachable_extended_real first precise number Binary64.isNumber_one ordered ?_
    simp [one, Store.fresh, Store.extended, Variables.empty]
  have bounds (v : Var) (member : v ∈ [⟨0⟩, ⟨1⟩]) : two.vars.bounds v = .ofBounds lo 1.0 := by
    simp only [List.mem_cons, List.not_mem_nil, or_false] at member
    obtain rfl | rfl := member <;> rfl
  have inside : ∀ x ∈ [-margin, 1], (Store.observationHull [⟨0⟩, ⟨1⟩] two).Encloses ((x : ℝ) : EReal) := by
    intro x member
    have range : -margin ≤ x ∧ x ≤ 1 := by
      have := Binary64.margin_pos
      simp only [List.mem_cons, List.not_mem_nil, or_false] at member
      obtain rfl | rfl := member <;> constructor <;> linarith
    refine Store.encloses_observationHull (v := ⟨0⟩) (fun v member => bounds v member ▸ Interval.proper_ofBounds _ _)
      List.mem_cons_self ?_
    rw [bounds _ List.mem_cons_self]
    exact Interval.encloses_ofBounds (fun _ => least ▸ EReal.coe_le_coe_iff.2 range.1)
      fun _ => Binary64.value_one ▸ EReal.coe_le_coe_iff.2 range.2
  obtain ⟨greatest, found, -, bound, -⟩ :=
    Store.varianceBound_bounds_spread two [⟨0⟩, ⟨1⟩] [-margin, 1] rfl (by decide) (by decide) inside
  refine ⟨two, greatest, reachable, by decide +kernel, found, le_of_eq_of_le (EReal.coe_eq_coe_iff.2 ?_) bound⟩
  norm_num [spread, deviation, average]
  ring

end StatBounds
