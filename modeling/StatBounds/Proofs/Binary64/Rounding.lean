import StatBounds.Proofs.Binary64.Value

/-! # Rounding to binary64

A real number is rounded to the nearest number, of two to the even one. This decides the rounding, which
is monotone and faithful: no number lies strictly between the two. A rounding drops bits of a
significand while it remembers where the dropped part lies, so the significands are the integers next
to a real number, and the numbers with a smaller exponent are too small to interfere.
-/

namespace StatBounds.Binary64

open Float.Model (Format totalExponent)
open Float.Model.UnpackedFloat (Sign ExtendedMantissa Accuracy shiftToExponent shiftToTargetExponent
  roundWithAccuracy decreaseExponent packComponents)

/-! ## Significands with residual bits -/

/-- How an accuracy places a real number above a significand: at it, or strictly between it and the
    next one, on the stated side of the middle. -/
def Located (x : ℝ) (significand : Nat) : Accuracy → Prop
  | .exact => x = significand
  | .inexact side => significand < x ∧ x < significand + 1 ∧ cmp x (significand + 1 / 2) = side

theorem Located.le {x : ℝ} {significand : Nat} {accuracy : Accuracy}
    (located : Located x significand accuracy) : significand ≤ x := by
  cases accuracy with
  | exact => exact Eq.ge located
  | inexact side => exact le_of_lt located.1

theorem Located.lt {x : ℝ} {significand : Nat} {accuracy : Accuracy}
    (located : Located x significand accuracy) : x < significand + 1 := by
  cases accuracy with
  | exact =>
      obtain rfl : x = significand := located
      exact lt_add_one _
  | inexact side => exact located.2.1

/-- Rounding picks one of the two neighbouring significands, and an exact one for itself. -/
theorem Located.rounded {x : ℝ} {significand : Nat} {accuracy : Accuracy}
    (located : Located x significand accuracy) (k : Nat) :
    ((k : ℝ) ≤ x → k ≤ accuracy.roundToNearestEven significand) ∧
      (x ≤ k → accuracy.roundToNearestEven significand ≤ k) := by
  cases accuracy with
  | exact =>
      obtain rfl : x = significand := located
      exact ⟨fun below => by exact_mod_cast below, fun above => by exact_mod_cast above⟩
  | inexact side =>
      obtain ⟨above, below, -⟩ := located
      have lower : (k : ℝ) ≤ x → k ≤ significand := by
        intro le
        have : (k : ℝ) < significand + 1 := lt_of_le_of_lt le below
        have : k < significand + 1 := by exact_mod_cast this
        omega
      have upper : x ≤ k → significand + 1 ≤ k := by
        intro le
        have : (significand : ℝ) < k := lt_of_lt_of_le above le
        have : significand < k := by exact_mod_cast this
        omega
      cases side <;> simp only [Accuracy.roundToNearestEven] <;>
        exact ⟨fun le => by have := lower le; omega, fun le => by have := upper le; omega⟩

theorem Located.near {x : ℝ} {significand : Nat} {accuracy : Accuracy}
    (located : Located x significand accuracy) :
    accuracy.roundToNearestEven significand ≤ x + 1 / 2 ∧
      x ≤ accuracy.roundToNearestEven significand + 1 / 2 := by
  cases accuracy with
  | exact =>
      obtain rfl : x = significand := located
      simp only [Accuracy.roundToNearestEven]
      constructor <;> linarith
  | inexact side =>
      obtain ⟨above, below, middle⟩ := located
      cases side with
      | lt =>
          rw [cmp_eq_lt_iff] at middle
          simp only [Accuracy.roundToNearestEven]
          constructor <;> linarith
      | gt =>
          rw [cmp_eq_gt_iff] at middle
          simp only [Accuracy.roundToNearestEven]
          push_cast
          constructor <;> linarith
      | eq =>
          rw [cmp_eq_eq_iff] at middle
          simp only [Accuracy.roundToNearestEven]
          rcases Nat.mod_two_eq_zero_or_one significand with even | odd
          · rw [even]
            push_cast
            constructor <;> linarith
          · rw [odd]
            push_cast
            constructor <;> linarith

/-- Of two significands that are equally near the even one is taken. -/
theorem Located.even {x : ℝ} {significand : Nat} {accuracy : Accuracy}
    (located : Located x significand accuracy)
    (tie : |x - accuracy.roundToNearestEven significand| = 1 / 2) :
    Even (accuracy.roundToNearestEven significand) := by
  cases accuracy with
  | exact =>
      obtain rfl : x = significand := located
      simp [Accuracy.roundToNearestEven] at tie
  | inexact side =>
      obtain ⟨above, below, middle⟩ := located
      cases side with
      | lt =>
          rw [cmp_eq_lt_iff] at middle
          simp only [Accuracy.roundToNearestEven] at tie
          rw [abs_of_pos (by linarith)] at tie
          linarith
      | gt =>
          rw [cmp_eq_gt_iff] at middle
          simp only [Accuracy.roundToNearestEven, Nat.cast_add, Nat.cast_one] at tie
          rw [abs_of_neg (by linarith)] at tie
          linarith
      | eq =>
          simp only [Accuracy.roundToNearestEven]
          rw [Nat.even_iff]
          omega

theorem accuracy_ofMantissaAndAccuracy (m : Nat) (a : Accuracy) :
    (ExtendedMantissa.ofMantissaAndAccuracy m a).mantissa = m ∧
      (ExtendedMantissa.ofMantissaAndAccuracy m a).accuracy = a := by
  cases a with
  | exact => exact ⟨rfl, rfl⟩
  | inexact side => cases side <;> exact ⟨rfl, rfl⟩

/-- Dropping the last bit halves the represented number. -/
theorem Located.shiftRightOne {x : ℝ} {em : ExtendedMantissa}
    (located : Located x em.mantissa em.accuracy) :
    Located (x / 2) em.shiftRightOne.mantissa em.shiftRightOne.accuracy := by
  obtain ⟨m, round, sticky⟩ := em
  have split : (m : ℝ) = 2 * (m / 2 : ℕ) + (m % 2 : ℕ) := by
    exact_mod_cast (Nat.div_add_mod m 2).symm
  rcases Nat.mod_two_eq_zero_or_one m with parity | parity <;>
    simp only [parity, Nat.cast_zero, Nat.cast_one] at split <;> cases round <;> cases sticky <;>
    simp only [Located, ExtendedMantissa.accuracy, ExtendedMantissa.shiftRightOne, parity,
      cmp_eq_lt_iff, cmp_eq_gt_iff, cmp_eq_eq_iff, bne_self_eq_false, show ((1 : ℕ) != 0) = true from rfl,
        Bool.or_true, Bool.or_false] at located ⊢ <;>
    grind

theorem Located.shiftRight {x : ℝ} {em : ExtendedMantissa}
    (located : Located x em.mantissa em.accuracy) (n : Nat) :
    Located (x / 2 ^ n) (em >>> n).mantissa (em >>> n).accuracy := by
  change Located _ (n.repeat ExtendedMantissa.shiftRightOne em).mantissa
    (n.repeat ExtendedMantissa.shiftRightOne em).accuracy
  induction n with
  | zero => simpa [Nat.repeat] using located
  | succ n ih =>
      rw [pow_succ, ← div_div]
      exact ih.shiftRightOne

/-! ## The rounded significand -/

/-- What is left of a positive real number once it is rounded to a significand of 53 bits: the multiple of
    the unit nearest to it, of two the even one, where the unit is as small as the format allows. -/
structure Rounded (r : ℝ) (significand : Nat) (exponent : Int) : Prop where
  low : -1074 ≤ exponent
  small : significand ≤ 2 ^ 53
  normal : 2 ^ 52 * (2 : ℝ) ^ exponent ≤ r ∨ exponent = -1074
  bound : r < 2 ^ 53 * (2 : ℝ) ^ exponent
  near : significand * (2 : ℝ) ^ exponent ≤ r + 2 ^ exponent / 2 ∧
    r ≤ significand * (2 : ℝ) ^ exponent + 2 ^ exponent / 2
  even : |r - significand * (2 : ℝ) ^ exponent| = 2 ^ exponent / 2 → Even significand
  below (k : Nat) : k * (2 : ℝ) ^ exponent ≤ r → k ≤ significand
  above (k : Nat) : r ≤ k * (2 : ℝ) ^ exponent → significand ≤ k

/-- The exponent to which a significand is shifted. -/
abbrev target (m : Nat) (e : Int) : Int :=
  Format.binary64.targetExponent (totalExponent m e)

theorem target_eq (m : Nat) (e : Int) : target m e = max (m.log2 + e - 52) (-1074) := by
  simp only [target, Format.targetExponent, totalExponent, Format.mantissaBits, Format.minExponent]
  omega

theorem rounded_shiftToTargetExponent {x : ℝ} {m : Nat} {accuracy : Accuracy} {e : Int}
    (leading : 0 < m ∨ target m e = -1074) (located : Located x m accuracy) (room : e ≤ target m e) :
    Rounded (x * 2 ^ e) (shiftToTargetExponent Format.binary64 m e accuracy).1.roundedMantissa
        (target m e) ∧
      (shiftToTargetExponent Format.binary64 m e accuracy).2 = target m e := by
  obtain ⟨shift, exponent⟩ := Int.eq_ofNat_of_zero_le (Int.sub_nonneg.2 room)
  have moved : shiftToTargetExponent Format.binary64 m e accuracy =
      (ExtendedMantissa.ofMantissaAndAccuracy m accuracy >>> shift, target m e) := by
    have amount : (target m e - e).toNat = shift := by omega
    simp only [shiftToTargetExponent, shiftToExponent, amount]
    congr 1
    omega
  rw [moved]
  refine ⟨?_, rfl⟩
  obtain ⟨same, accurate⟩ := accuracy_ofMantissaAndAccuracy m accuracy
  let start := ExtendedMantissa.ofMantissaAndAccuracy m accuracy
  have begun : Located x start.mantissa start.accuracy := by
    rwa [same, accurate]
  have located' := begun.shiftRight shift
  have scale : x * (2 : ℝ) ^ e = x / 2 ^ shift * 2 ^ target m e := by
    have : target m e = e + shift := by omega
    rw [this, zpow_add₀ (by norm_num), zpow_natCast]
    field_simp
  have unit : (0 : ℝ) < 2 ^ target m e := by positivity
  have neighbour (k : Nat) := located'.rounded k
  have atLeast := located.le
  have below := located.lt
  have bits := target_eq m e
  have nextPower : m < 2 ^ (m.log2 + 1) := Nat.lt_log2_self
  have less : x / 2 ^ shift < 2 ^ 53 := by
    rw [div_lt_iff₀ (by positivity)]
    have : 2 ^ (m.log2 + 1) ≤ 2 ^ (53 + shift) := Nat.pow_le_pow_right (by decide) (by omega)
    have : m + 1 ≤ 2 ^ (53 + shift) := by omega
    have : (m : ℝ) + 1 ≤ 2 ^ (53 + shift) := by exact_mod_cast this
    rw [pow_add] at this
    linarith
  change Rounded _ (start >>> shift).roundedMantissa _
  rw [scale]
  exact
    { low := by omega
      small := (neighbour (2 ^ 53)).2 (by exact_mod_cast less.le)
      normal := by
        refine or_iff_not_imp_right.2 fun above => ?_
        have power : 2 ^ m.log2 ≤ m := Nat.log2_self_le (leading.resolve_right above).ne'
        gcongr
        rw [le_div_iff₀ (by positivity), ← pow_add, show 52 + shift = m.log2 by omega]
        exact le_trans (by exact_mod_cast power) atLeast
      bound := by gcongr
      near := by
        obtain ⟨left, right⟩ : (start >>> shift).roundedMantissa ≤ x / 2 ^ shift + 1 / 2 ∧
            x / 2 ^ shift ≤ (start >>> shift).roundedMantissa + 1 / 2 := located'.near
        constructor
        · have := mul_le_mul_of_nonneg_right left unit.le
          exact le_of_le_of_eq this (by ring)
        · have := mul_le_mul_of_nonneg_right right unit.le
          exact le_of_le_of_eq this (by ring)
      even := fun tie => located'.even <| by
        rw [← sub_mul, abs_mul, abs_of_pos unit] at tie
        exact mul_right_cancel₀ unit.ne' (tie.trans (by ring))
      below := fun k le => (neighbour k).1 (le_of_mul_le_mul_right le unit)
      above := fun k le => (neighbour k).2 (le_of_mul_le_mul_right le unit) }

theorem Rounded.normal_le {r : ℝ} {q : Nat} {t : Int} (rounded : Rounded r q t) (above : -1074 < t) :
    2 ^ 52 ≤ q :=
  rounded.below (2 ^ 52) (by exact_mod_cast rounded.normal.resolve_right (by omega))

/-- Rounding keeps the order of positive numbers. -/
theorem Rounded.mono {r s : ℝ} {p q : Nat} {t u : Int} (less : r < s) (left : Rounded r p t)
    (right : Rounded s q u) : (p : ℝ) * 2 ^ t ≤ q * 2 ^ u := by
  rcases lt_trichotomy t u with finer | rfl | coarser
  · -- The greater number has a greater unit.
    have := right.low
    calc (p : ℝ) * 2 ^ t ≤ 2 ^ 53 * 2 ^ t := by
          gcongr
          exact_mod_cast left.small
      _ = 2 ^ 52 * 2 ^ (t + 1) := by
          rw [zpow_add₀ (by norm_num)]
          ring
      _ ≤ q * 2 ^ u := by
          gcongr
          · exact_mod_cast right.normal_le (lt_of_le_of_lt left.low finer)
          · norm_num
          · omega
  · gcongr
    have unit : (0 : ℝ) < 2 ^ t := by positivity
    have : (p : ℝ) * 2 ^ t < (q + 1) * 2 ^ t := by
      have := left.near.1
      have := right.near.2
      rw [add_mul]
      linarith
    have : (p : ℝ) < q + 1 := lt_of_mul_lt_mul_right this unit.le
    have : p < q + 1 := by exact_mod_cast this
    omega
  · have low := left.normal.resolve_right (by have := right.low; omega)
    have high := right.bound
    have : (2 : ℝ) ^ 53 * 2 ^ u ≤ 2 ^ 52 * 2 ^ t := by
      calc (2 : ℝ) ^ 53 * 2 ^ u = 2 ^ 52 * 2 ^ (u + 1) := by
            rw [zpow_add₀ (by norm_num)]
            ring
        _ ≤ 2 ^ 52 * 2 ^ t := by
            gcongr
            · norm_num
            · omega
    linarith

/-- A real number that is a multiple of its unit is rounded to itself. -/
theorem Rounded.exact {r : ℝ} {q : Nat} {t : Int} (rounded : Rounded r q t) {k : Nat}
    (multiple : r = k * 2 ^ t) : (q : ℝ) * 2 ^ t = r := by
  have : q = k := le_antisymm (rounded.above k multiple.le) (rounded.below k multiple.ge)
  rw [this, multiple]

/-- A positive real number is rounded in one way only. -/
theorem Rounded.unique {r : ℝ} {p q : Nat} {t u : Int} (left : Rounded r p t) (right : Rounded r q u) :
    p = q ∧ t = u := by
  have apart {t u : Int} {p q : Nat} (left : Rounded r p t) (right : Rounded r q u) : ¬ t < u := by
    intro less
    have low := right.normal.resolve_right (by have := left.low; omega)
    have high := left.bound
    have : (2 : ℝ) ^ 53 * 2 ^ t ≤ 2 ^ 52 * 2 ^ u := by
      calc (2 : ℝ) ^ 53 * 2 ^ t = 2 ^ 52 * 2 ^ (t + 1) := by
            rw [zpow_add₀ (by norm_num)]
            ring
        _ ≤ 2 ^ 52 * 2 ^ u := by
            gcongr
            · norm_num
            · omega
    linarith
  obtain rfl : t = u := le_antisymm (not_lt.1 (apart right left)) (not_lt.1 (apart left right))
  have unit : (0 : ℝ) < 2 ^ t := by positivity
  -- Two different significands would be neighbours, both at a tie and so both even.
  have next {p q : Nat} (left : Rounded r p t) (right : Rounded r q t) : ¬ p < q := by
    intro less
    have step : ((p + 1 : ℕ) : ℝ) * 2 ^ t ≤ q * 2 ^ t := by
      gcongr
      exact less
    rw [Nat.cast_add, Nat.cast_one, add_mul, one_mul] at step
    have := left.near.2
    have := right.near.1
    have evenP := left.even (by rw [abs_of_nonneg] <;> linarith)
    have evenQ := right.even (by rw [abs_of_nonpos] <;> linarith)
    have same : (q : ℝ) * 2 ^ t = ((p + 1 : ℕ) : ℝ) * 2 ^ t := by
      push_cast
      linarith
    have same : q = p + 1 := by exact_mod_cast mul_right_cancel₀ unit.ne' same
    rw [same, Nat.even_add_one] at evenQ
    exact evenQ evenP
  exact ⟨le_antisymm (not_lt.1 (next right left)) (not_lt.1 (next left right)), rfl⟩

/-! ## Faithful rounding -/

/-- A value next to a real number: no binary64 number lies strictly between the two. -/
def Faithful (r : ℝ) (v : EReal) : Prop :=
  ∀ z : Unpacked, Canonical z → z.isNaN = false →
    (valueOf z ≤ r → valueOf z ≤ v) ∧ (r ≤ valueOf z → v ≤ valueOf z)

theorem faithful_self (r : ℝ) : Faithful r r :=
  fun _ _ _ => ⟨id, id⟩

/-- Rounding treats both signs alike. -/
theorem Faithful.neg {r : ℝ} {v : EReal} (faithful : Faithful r v) : Faithful (-r) (-v) := by
  intro z canonical number
  have mirrored := faithful z.neg (canonical_neg canonical) (by cases z <;> exact number)
  rw [valueOf_neg] at mirrored
  rw [EReal.coe_neg]
  exact ⟨fun below => EReal.le_neg_of_le_neg (mirrored.2 (EReal.le_neg_of_le_neg below)),
    fun above => EReal.neg_le_of_neg_le (mirrored.1 (EReal.neg_le_of_neg_le above))⟩

/-- A number with a unit of at least `2 ^ t` is a multiple of it. -/
theorem multiple_of_unit {m : Nat} {e t : Int} (coarse : t ≤ e) :
    ∃ k : Nat, (m : ℝ) * 2 ^ e = k * (2 : ℝ) ^ t := by
  obtain ⟨shift, difference⟩ := Int.eq_ofNat_of_zero_le (Int.sub_nonneg.2 coarse)
  refine ⟨m * 2 ^ shift, ?_⟩
  rw [show e = shift + t by omega, zpow_add₀ (by norm_num), zpow_natCast]
  push_cast
  ring

/-- No canonical number lies strictly between a number and what it is rounded to. -/
theorem Rounded.faithful {r : ℝ} {q : Nat} {t : Int} (rounded : Rounded r q t) (positive : 0 < r) :
    Faithful r ((q * (2 : ℝ) ^ t : ℝ) : EReal) := by
  have nonneg : (0 : ℝ) ≤ q * 2 ^ t := by positivity
  intro z canonical number
  rcases z with (_ | _) | _ | _ | ⟨_ | _, m, e, some⟩
  · exact ⟨fun _ => bot_le, fun above => absurd above (by simp [valueOf])⟩
  · exact ⟨fun below => absurd below (by simp [valueOf]), fun _ => le_top⟩
  · simp [Float.Model.UnpackedFloat.isNaN] at number
  · simp only [valueOf]
    norm_cast
    exact ⟨fun _ => nonneg, fun above => absurd above (by linarith)⟩
  · rw [valueOf_finite_negative, EReal.coe_le_coe_iff, EReal.coe_le_coe_iff, EReal.coe_le_coe_iff,
      EReal.coe_le_coe_iff]
    have := magnitude_pos e some
    exact ⟨fun _ => by linarith, fun above => by linarith⟩
  · obtain ⟨small, least, -, -⟩ := canonical
    rw [valueOf_finite_positive, EReal.coe_le_coe_iff, EReal.coe_le_coe_iff, EReal.coe_le_coe_iff,
      EReal.coe_le_coe_iff]
    by_cases coarse : t ≤ e
    · obtain ⟨k, same⟩ := multiple_of_unit (m := m) coarse
      rw [same]
      refine ⟨fun below => ?_, fun above => ?_⟩
      · gcongr
        exact_mod_cast rounded.below k below
      · gcongr
        exact_mod_cast rounded.above k above
    · -- A finer number lies below all roundings that keep a leading bit.
      have fine : -1074 < t := by omega
      have less : (m : ℝ) * 2 ^ e < 2 ^ 52 * 2 ^ t := by
        exact_mod_cast magnitude_lt small (le_refl (2 ^ 52)) (show e < t by omega)
      have leading : (2 : ℝ) ^ 52 * 2 ^ t ≤ q * 2 ^ t := by
        gcongr
        exact_mod_cast rounded.normal_le fine
      have normal := rounded.normal.resolve_right (by omega)
      exact ⟨fun _ => by linarith, fun above => by linarith⟩

/-- The next canonical number above a rounded one is at least one unit away. -/
theorem Rounded.succ_le {r : ℝ} {q : Nat} {t : Int} (rounded : Rounded r q t) {z : Unpacked}
    (canonical : Canonical z) (greater : ((q * (2 : ℝ) ^ t : ℝ) : EReal) < valueOf z) :
    (((q + 1) * (2 : ℝ) ^ t : ℝ) : EReal) ≤ valueOf z := by
  have nonneg : (0 : ℝ) ≤ q * 2 ^ t := by positivity
  rcases z with (_ | _) | _ | _ | ⟨_ | _, m, e, some⟩
  · exact absurd greater (by simp [valueOf])
  · exact le_top
  · exact absurd (EReal.coe_lt_coe_iff.1 greater) (not_lt.2 nonneg)
  · exact absurd (EReal.coe_lt_coe_iff.1 greater) (not_lt.2 nonneg)
  · rw [valueOf_finite_negative, EReal.coe_lt_coe_iff] at greater
    have := magnitude_pos e some
    linarith
  · obtain ⟨small, least, -, -⟩ := canonical
    rw [valueOf_finite_positive, EReal.coe_lt_coe_iff] at greater
    rw [valueOf_finite_positive, EReal.coe_le_coe_iff]
    by_cases coarse : t ≤ e
    · obtain ⟨k, same⟩ := multiple_of_unit (m := m) coarse
      rw [same] at greater ⊢
      have more : q < k := by exact_mod_cast lt_of_mul_lt_mul_right greater (by positivity)
      gcongr
      exact_mod_cast more
    · have less : (m : ℝ) * 2 ^ e < 2 ^ 52 * 2 ^ t := by
        exact_mod_cast magnitude_lt small (le_refl (2 ^ 52)) (show e < t by omega)
      have leading : (2 : ℝ) ^ 52 * 2 ^ t ≤ q * 2 ^ t := by
        gcongr
        exact_mod_cast rounded.normal_le (by omega)
      linarith

/-- The least power of two that is too great for the format. -/
noncomputable def limit : ℝ := 2 ^ (1024 : ℤ)

theorem limit_pos : 0 < limit := by
  unfold limit
  positivity

theorem limit_eq (k : Nat) : limit = 2 ^ k * 2 ^ (1024 - k : ℤ) := by
  rw [limit, ← zpow_natCast, ← zpow_add₀ (by norm_num)]
  congr 1
  ring

noncomputable def clip (w : ℝ) : EReal :=
  if w < limit then w else ⊤

theorem clip_mono {v w : ℝ} (le : v ≤ w) : clip v ≤ clip w := by
  unfold clip
  split_ifs with small fits
  · exact EReal.coe_le_coe_iff.2 le
  · exact le_top
  · linarith
  · exact le_rfl

theorem clip_zero : clip 0 = 0 := by
  rw [clip, if_pos limit_pos]
  rfl

theorem magnitude_lt_limit {m : Nat} {e : Int} (small : m < 2 ^ 53) (high : e ≤ 971) :
    (m : ℝ) * 2 ^ e < limit := by
  calc (m : ℝ) * 2 ^ e < 2 ^ 53 * 2 ^ e := by
        gcongr
        exact_mod_cast small
    _ ≤ 2 ^ 53 * 2 ^ (971 : ℤ) := by
        gcongr
        norm_num
    _ = limit := (limit_eq 53).symm

theorem valueOf_lt_limit {z : Unpacked} (canonical : Canonical z) (bounded : valueOf z ≠ ⊤) :
    valueOf z < limit := by
  rcases z with (_ | _) | _ | _ | ⟨_ | _, m, e, positive⟩
  · exact EReal.bot_lt_coe _
  · exact absurd rfl bounded
  · exact EReal.coe_lt_coe_iff.2 limit_pos
  · exact EReal.coe_lt_coe_iff.2 limit_pos
  · have := magnitude_pos e positive
    rw [valueOf_finite_negative, EReal.coe_lt_coe_iff]
    calc -((m : ℝ) * 2 ^ e) < 0 := by linarith
      _ < limit := limit_pos
  · obtain ⟨small, -, high, -⟩ := canonical
    rw [valueOf_finite_positive, EReal.coe_lt_coe_iff]
    exact magnitude_lt_limit small high

/-- No number lies between the limit of the format and the positive infinity. -/
theorem Faithful.clip {r w : ℝ} (faithful : Faithful r w) : Faithful r (clip w) := by
  unfold Binary64.clip
  split_ifs with small
  · exact faithful
  · refine fun z canonical number => ⟨fun _ => le_top, fun above => ?_⟩
    by_contra bounded
    have reached := (faithful z canonical number).2 above
    have := valueOf_lt_limit canonical (fun top => bounded top.ge)
    have := EReal.coe_lt_coe_iff.1 (lt_of_le_of_lt reached this)
    exact small this

/-! ## The nearest number -/

/-- The value that a real number is rounded to. -/
inductive Nearest : ℝ → EReal → Prop
  | zero : Nearest 0 0
  | positive {r : ℝ} {q : Nat} {t : Int} (positive : 0 < r) (rounded : Rounded r q t) :
      Nearest r (clip (q * 2 ^ t))
  | negative {r : ℝ} {q : Nat} {t : Int} (negative : 0 < r) (rounded : Rounded r q t) :
      Nearest (-r) (-clip (q * 2 ^ t))

theorem clip_nonneg {w : ℝ} (nonneg : 0 ≤ w) : 0 ≤ clip w :=
  clip_zero.symm.le.trans (clip_mono nonneg)

theorem Nearest.neg {r : ℝ} {v : EReal} (nearest : Nearest r v) : Nearest (-r) (-v) := by
  cases nearest with
  | zero => simpa using Nearest.zero
  | positive positive rounded => exact .negative positive rounded
  | negative negative rounded => simpa using Nearest.positive negative rounded

theorem Nearest.faithful {r : ℝ} {v : EReal} (nearest : Nearest r v) : Faithful r v := by
  cases nearest with
  | zero => exact faithful_self 0
  | positive positive rounded => exact (rounded.faithful positive).clip
  | negative negative rounded => exact (rounded.faithful negative).clip.neg

/-- Rounding keeps the order, and gives equal real numbers the same value. -/
theorem Nearest.mono {r s : ℝ} {v w : EReal} (left : Nearest r v) (right : Nearest s w) (le : r ≤ s) :
    v ≤ w := by
  have magnitude {r s : ℝ} {p q : Nat} {t u : Int} (left : Rounded r p t) (right : Rounded s q u)
      (le : r ≤ s) : clip (p * 2 ^ t) ≤ clip (q * 2 ^ u) := by
    rcases eq_or_lt_of_le le with rfl | less
    · obtain ⟨rfl, rfl⟩ := left.unique right
      exact le_rfl
    · exact clip_mono (left.mono less right)
  have above (q : Nat) (t : Int) : 0 ≤ clip (q * 2 ^ t) := clip_nonneg (by positivity)
  have below (q : Nat) (t : Int) : -clip (q * 2 ^ t) ≤ 0 := by simpa using above q t
  cases left with
  | zero =>
      cases right with
      | zero => exact le_rfl
      | positive positive rounded => exact above _ _
      | negative negative rounded => linarith
  | positive positive rounded =>
      cases right with
      | zero => linarith
      | positive positive' rounded' => exact magnitude rounded rounded' le
      | negative negative rounded => linarith
  | negative negative rounded =>
      cases right with
      | zero => exact below _ _
      | positive positive rounded => exact (below _ _).trans (above _ _)
      | negative negative' rounded' =>
          exact EReal.neg_le_neg_iff.2 (magnitude rounded' rounded (neg_le_neg_iff.1 le))

/-- A number that is no NaN and that a real number is rounded to. -/
structure IsRounding (r : ℝ) (x : Float) : Prop where
  isNumber : IsNumber x
  nearest : Nearest r (value x)

theorem IsRounding.faithful {r : ℝ} {x : Float} (rounding : IsRounding r x) : Faithful r (value x) :=
  rounding.nearest.faithful

/-- The encoding of a decoded number that has a place for its leading bit. -/
def encode (u : Unpacked) : Float :=
  .ofModel (Float.Model.pack u)

/-- A canonical number is its own rounding. -/
theorem nearest_self {u : Unpacked} (canonical : Canonical u) {r : ℝ} (same : valueOf u = r) :
    Nearest r (valueOf u) := by
  have magnitude {m : Nat} {e : Int} (positive : 0 < m)
      (placed : m < 2 ^ 53 ∧ -1074 ≤ e ∧ e ≤ 971 ∧ (2 ^ 52 ≤ m ∨ e = -1074)) :
      Rounded (m * 2 ^ e) m e ∧ clip (m * 2 ^ e) = ((m * 2 ^ e : ℝ) : EReal) := by
    obtain ⟨small, low, high, normal⟩ := placed
    have unit : (0 : ℝ) < 2 ^ e := by positivity
    refine ⟨?_, if_pos (magnitude_lt_limit small high)⟩
    exact
      { low := low
        small := small.le
        normal := normal.imp_left fun leading => by
          gcongr
          exact_mod_cast leading
        bound := by
          gcongr
          exact_mod_cast small
        near := ⟨by linarith, by linarith⟩
        even := fun tie => by
          rw [sub_self, abs_zero] at tie
          linarith
        below := fun k le => by exact_mod_cast le_of_mul_le_mul_right le unit
        above := fun k le => by exact_mod_cast le_of_mul_le_mul_right le unit }
  rcases u with (_ | _) | _ | sign | ⟨_ | _, m, e, positive⟩
  · exact absurd same (EReal.bot_ne_coe r)
  · exact absurd same (EReal.top_ne_coe r)
  · obtain rfl : 0 = r := EReal.coe_injective same
    exact .zero
  · obtain rfl : 0 = r := EReal.coe_injective same
    exact .zero
  · obtain ⟨rounded, fits⟩ := magnitude positive canonical
    rw [valueOf_finite_negative] at same ⊢
    obtain rfl : _ = r := EReal.coe_injective same
    rw [EReal.coe_neg, ← fits]
    exact .negative (magnitude_pos e positive) rounded
  · obtain ⟨rounded, fits⟩ := magnitude positive canonical
    rw [valueOf_finite_positive] at same ⊢
    obtain rfl : _ = r := EReal.coe_injective same
    rw [← fits]
    exact .positive (magnitude_pos e positive) rounded

theorem isRounding_encode {r : ℝ} {u : Unpacked} (canonical : Canonical u) (number : u.isNaN = false)
    (same : valueOf u = r) : IsRounding r (encode u) where
  isNumber := by
    change (Float.Model.pack u).unpack.isNaN = false
    rwa [unpack_pack canonical]
  nearest := by
    change Nearest r (valueOf (Float.Model.pack u).unpack)
    rw [unpack_pack canonical]
    exact nearest_self canonical same

/-- A rounded significand is encoded as it is, or as an infinity if its exponent is too great. -/
theorem value_encode_positive {m : Nat} {e : Int} (nonzero : 0 < m) (small : m < 2 ^ 53)
    (low : -1074 ≤ e) (normal : 2 ^ 52 ≤ m ∨ e = -1074) :
    IsNumber (encode (.finite .positive m e nonzero)) ∧
      value (encode (.finite .positive m e nonzero)) = clip (m * 2 ^ e) := by
  by_cases fits : e ≤ 971
  · have decoded : (encode (.finite .positive m e nonzero)).toModel.unpack = _ :=
      unpack_pack (u := .finite .positive m e nonzero) ⟨small, low, fits, normal⟩
    refine ⟨?_, ?_⟩
    · change (encode _).toModel.unpack.isNaN = false
      rw [decoded]
      rfl
    · rw [value, decoded, valueOf_finite_positive, clip, if_pos (magnitude_lt_limit small fits)]
  · have decoded : (encode (.finite .positive m e nonzero)).toModel.unpack = .infinity .positive :=
      unpack_pack_overflow .positive nonzero (by omega)
    refine ⟨?_, ?_⟩
    · change (encode _).toModel.unpack.isNaN = false
      rw [decoded]
      rfl
    · have leading : 2 ^ 52 ≤ m := normal.resolve_right (by omega)
      have great : limit ≤ m * 2 ^ e := by
        calc limit = 2 ^ 52 * 2 ^ (972 : ℤ) := limit_eq 52
          _ ≤ m * 2 ^ e := by
            gcongr
            · exact_mod_cast leading
            · norm_num
            · omega
      rw [value, decoded, valueOf, clip, if_neg (not_lt.2 great)]

/-- Shifting by nothing keeps a significand whose leading bit is in place. -/
private theorem shiftToTargetExponent_fixed {m : Nat} {e : Int} (placed : target m e ≤ e) :
    shiftToTargetExponent Format.binary64 m e .exact = (⟨m, false, false⟩, e) := by
  have amount : (target m e - e).toNat = 0 := by omega
  simp only [shiftToTargetExponent, shiftToExponent, amount]
  simp [HShiftRight.hShiftRight, Nat.repeat, ExtendedMantissa.ofMantissaAndAccuracy]

/-- A number with residual bits is rounded to the nearest significand. -/
theorem rounded_roundWithAccuracy {x : ℝ} {m : Nat} {accuracy : Accuracy} {e : Int}
    (leading : 0 < m ∨ target m e = -1074) (located : Located x m accuracy) (room : e ≤ target m e) :
    let y := encode (roundWithAccuracy Format.binary64 .positive m e accuracy)
    IsNumber y ∧ ∃ q t, Rounded (x * 2 ^ e) q t ∧ value y = clip (q * 2 ^ t) := by
  obtain ⟨rounded, exponent⟩ := rounded_shiftToTargetExponent leading located room
  have normal : 2 ^ 52 ≤ _ ∨ target m e = -1074 := or_iff_not_imp_right.2 fun above =>
    rounded.normal_le (lt_of_le_of_ne rounded.low (Ne.symm above))
  have low := rounded.low
  have twice : roundWithAccuracy Format.binary64 .positive m e accuracy =
    (let second := shiftToTargetExponent Format.binary64
       (shiftToTargetExponent Format.binary64 m e accuracy).1.roundedMantissa
       (shiftToTargetExponent Format.binary64 m e accuracy).2 .exact
     if h : second.1.mantissa = 0 then .zero .positive
     else .finite .positive second.1.mantissa second.2 (Nat.pos_of_ne_zero h)) := rfl
  rw [exponent] at twice
  rw [twice]
  generalize (shiftToTargetExponent Format.binary64 m e accuracy).1.roundedMantissa = q at *
  generalize target m e = t at *
  rcases Nat.lt_or_eq_of_le rounded.small with small | rfl
  · have placed : target q t ≤ t := by
      have := target_eq q t
      have : q.log2 < 53 ∨ q = 0 := or_iff_not_imp_right.2 fun some => (Nat.log2_lt some).2 small
      rcases this with short | rfl
      · omega
      · simp only [Nat.log2_zero] at this
        omega
    simp only [shiftToTargetExponent_fixed placed]
    split_ifs with zero
    · refine ⟨by rfl, q, t, rounded, ?_⟩
      rw [zero, Nat.cast_zero, zero_mul, clip_zero]
      rfl
    · obtain ⟨number, same⟩ := value_encode_positive (Nat.pos_of_ne_zero zero) small low normal
      exact ⟨number, q, t, rounded, same⟩
  · -- The carry makes a power of two, from which another bit can be dropped.
    have carried : shiftToTargetExponent Format.binary64 (2 ^ 53) t .exact =
        (⟨2 ^ 52, false, false⟩, t + 1) := by
      have amount : (target (2 ^ 53) t - t).toNat = 1 := by
        have := target_eq (2 ^ 53) t
        rw [Nat.log2_two_pow] at this
        omega
      simp only [shiftToTargetExponent, shiftToExponent, amount]
      rfl
    have scale : ((2 ^ 53 : ℕ) : ℝ) * 2 ^ t = ((2 ^ 52 : ℕ) : ℝ) * 2 ^ (t + 1) := by
      rw [zpow_add₀ (by norm_num)]
      push_cast
      ring
    simp only [carried]
    rw [dif_neg (by norm_num)]
    obtain ⟨number, same⟩ :=
      value_encode_positive (m := 2 ^ 52) (e := t + 1) (by norm_num) (by norm_num) (by omega)
        (.inl le_rfl)
    exact ⟨number, _, t, rounded, by rw [same, scale]⟩

/-! ## Sums -/

/-- A significand is lengthened until its leading bit is in place, and then rounded. -/
theorem rounded_round {m : Nat} (nonzero : 0 < m) (e : Int) :
    let y := encode (Float.Model.UnpackedFloat.round Format.binary64 .positive m e)
    IsNumber y ∧ ∃ q t, Rounded (m * 2 ^ e) q t ∧ value y = clip (q * 2 ^ t) := by
  let shift := (e - target m e).toNat
  have lengthened : 0 < m <<< shift := by
    rw [Nat.shiftLeft_eq]
    positivity
  have bits : (m <<< shift).log2 = m.log2 + shift := by
    rw [Nat.shiftLeft_eq, Nat.log2_eq_iff (by positivity)]
    have := Nat.log2_self_le (n := m) (by omega)
    have := Nat.lt_log2_self (n := m)
    constructor
    · rw [pow_add]
      gcongr
    · rw [show m.log2 + shift + 1 = m.log2 + 1 + shift by omega, pow_add]
      gcongr
  have room : e - shift ≤ target (m <<< shift) (e - shift) := by
    have := target_eq (m <<< shift) (e - shift)
    have := target_eq m e
    omega
  have same : (m : ℝ) * 2 ^ e = (m <<< shift : ℕ) * 2 ^ (e - shift) := by
    rw [Nat.shiftLeft_eq, show e = shift + (e - shift) by ring, zpow_add₀ (by norm_num), zpow_natCast]
    push_cast
    ring_nf
  have located : Located (m <<< shift : ℕ) (m <<< shift) .exact := rfl
  rw [same]
  exact rounded_roundWithAccuracy (.inl lengthened) located room

theorem isRounding_round {m : Nat} (nonzero : 0 < m) (e : Int) :
    IsRounding (m * 2 ^ e)
      (encode (Float.Model.UnpackedFloat.round Format.binary64 .positive m e)) := by
  obtain ⟨number, q, t, rounded, same⟩ := rounded_round nonzero e
  exact ⟨number, same ▸ .positive (magnitude_pos e nonzero) rounded⟩

theorem unpack_packComponents_neg (sign : Sign) (exponent : BitVec 11) (fraction : BitVec 52) :
    Float.Model.UnpackedFloat.unpack Format.binary64
        (packComponents Format.binary64 (-sign) exponent fraction) =
      (Float.Model.UnpackedFloat.unpack Format.binary64
        (packComponents Format.binary64 sign exponent fraction)).neg := by
  rw [unpack_packComponents, unpack_packComponents]
  split_ifs <;> rfl

theorem unpack_encode_neg (u : Unpacked) :
    (encode u.neg).toModel.unpack = (encode u).toModel.unpack.neg := by
  change Float.Model.UnpackedFloat.unpack Format.binary64
    (Float.Model.UnpackedFloat.pack Format.binary64 u.neg) =
      (Float.Model.UnpackedFloat.unpack Format.binary64
        (Float.Model.UnpackedFloat.pack Format.binary64 u)).neg
  cases u with
  | infinity sign => exact unpack_packComponents_neg sign _ _
  | notANumber =>
      have nan : Float.Model.UnpackedFloat.unpack Format.binary64
          (Float.Model.UnpackedFloat.pack Format.binary64 .notANumber) = .notANumber :=
        unpack_pack (u := .notANumber) trivial
      rw [nan]
      exact nan
  | zero sign => exact unpack_packComponents_neg sign _ _
  | finite sign m e positive =>
      simp only [Float.Model.UnpackedFloat.neg, Float.Model.UnpackedFloat.pack]
      split_ifs
      · exact unpack_packComponents_neg sign _ _
      · exact unpack_packComponents_neg sign _ _
      · exact unpack_packComponents_neg sign _ _

theorem IsRounding.neg {r : ℝ} {u : Unpacked} (rounding : IsRounding r (encode u)) :
    IsRounding (-r) (encode u.neg) where
  isNumber := by
    change (encode u.neg).toModel.unpack.isNaN = false
    rw [unpack_encode_neg]
    have number : (encode u).toModel.unpack.isNaN = false := rounding.isNumber
    cases same : (encode u).toModel.unpack <;> rw [same] at number <;> exact number
  nearest := by
    rw [value, unpack_encode_neg, valueOf_neg]
    exact rounding.nearest.neg

theorem round_negative (m : Nat) (e : Int) :
    Float.Model.UnpackedFloat.round Format.binary64 .negative m e =
      (Float.Model.UnpackedFloat.round Format.binary64 .positive m e).neg := by
  simp only [Float.Model.UnpackedFloat.round, roundWithAccuracy]
  split_ifs <;> rfl

/-- A signed significand is rounded to the nearest number. -/
theorem isRounding_normalize (m e : Int) (zeroSign : Sign) :
    IsRounding (m * 2 ^ e)
      (encode (Float.Model.UnpackedFloat.normalize Format.binary64 m e zeroSign)) := by
  unfold Float.Model.UnpackedFloat.normalize
  rcases lt_trichotomy m 0 with negative | rfl | positive
  · rw [compare_lt_iff_lt.2 negative]
    have mirrored := (isRounding_round (m := (-m).toNat) (by omega) e).neg
    have same : (((-m).toNat : ℕ) : ℝ) = -(m : ℝ) := by
      rw [← Int.cast_natCast, Int.toNat_of_nonneg (by omega), Int.cast_neg]
    rw [same, neg_mul, neg_neg, ← round_negative] at mirrored
    exact mirrored
  · rw [compare_eq_iff_eq.2 rfl, Int.cast_zero, zero_mul]
    exact isRounding_encode trivial rfl rfl
  · rw [compare_gt_iff_gt.2 positive]
    have same : ((m.toNat : ℕ) : ℝ) = (m : ℝ) := by
      rw [← Int.cast_natCast, Int.toNat_of_nonneg (by omega)]
    rw [← same]
    exact isRounding_round (by omega) e

/-- Significands that are brought to the same exponent stand for the same numbers as before. -/
private theorem decreaseExponent_value (sign : Sign) (m : Nat) {e t : Int} (lower : t ≤ e) :
    ((sign.apply (decreaseExponent m e t).1 : ℤ) : ℝ) * 2 ^ t = (sign.apply m : ℤ) * 2 ^ e := by
  obtain ⟨shift, difference⟩ := Int.eq_ofNat_of_zero_le (Int.sub_nonneg.2 lower)
  have amount : (e - t).toNat = shift := by omega
  have scale : (2 : ℝ) ^ e = 2 ^ shift * 2 ^ t := by
    rw [show e = shift + t by omega, zpow_add₀ (by norm_num), zpow_natCast]
  simp only [decreaseExponent, amount, Nat.shiftLeft_eq, scale]
  cases sign <;> simp only [Sign.apply] <;> push_cast <;> ring

private theorem isRounding_add_unpacked {u v : Unpacked} (canonicalU : Canonical u)
    (canonicalV : Canonical v) (numberU : u.isNaN = false) (numberV : v.isNaN = false) {r s : ℝ}
    (valueU : valueOf u = r) (valueV : valueOf v = s) :
    IsRounding (r + s) (encode (u.add Format.binary64 v)) := by
  have zero (sign : Sign) : valueOf (.zero sign) = ((0 : ℝ) : EReal) := rfl
  rcases u with (_ | _) | _ | sign₁ | ⟨sign₁, m₁, e₁, positive₁⟩
  · exact absurd valueU (EReal.bot_ne_coe r)
  · exact absurd valueU (EReal.top_ne_coe r)
  · exact absurd numberU (by decide)
  all_goals rcases v with (_ | _) | _ | sign₂ | ⟨sign₂, m₂, e₂, positive₂⟩
  case zero.infinity.negative => exact absurd valueV (EReal.bot_ne_coe s)
  case zero.infinity.positive => exact absurd valueV (EReal.top_ne_coe s)
  case finite.infinity.negative => exact absurd valueV (EReal.bot_ne_coe s)
  case finite.infinity.positive => exact absurd valueV (EReal.top_ne_coe s)
  case zero.notANumber => exact absurd numberV (by decide)
  case finite.notANumber => exact absurd numberV (by decide)
  case zero.zero =>
    obtain rfl : 0 = r := EReal.coe_injective ((zero sign₁).symm.trans valueU)
    obtain rfl : 0 = s := EReal.coe_injective ((zero sign₂).symm.trans valueV)
    rw [add_zero]
    cases sign₁ <;> cases sign₂ <;> exact isRounding_encode trivial rfl rfl
  case zero.finite =>
    obtain rfl : 0 = r := EReal.coe_injective ((zero sign₁).symm.trans valueU)
    rw [zero_add]
    exact isRounding_encode canonicalV rfl valueV
  case finite.zero =>
    obtain rfl : 0 = s := EReal.coe_injective ((zero sign₂).symm.trans valueV)
    rw [add_zero]
    exact isRounding_encode canonicalU rfl valueU
  case finite.finite =>
    obtain rfl : _ = r := EReal.coe_injective valueU
    obtain rfl : _ = s := EReal.coe_injective valueV
    rw [← decreaseExponent_value sign₁ m₁ (min_le_left e₁ e₂),
      ← decreaseExponent_value sign₂ m₂ (min_le_right e₁ e₂), ← add_mul, ← Int.cast_add]
    exact isRounding_normalize _ (min e₁ e₂) .positive

/-- The sum of two real numbers is rounded to the nearest number. -/
theorem isRounding_add {x y : Float} (numberX : IsNumber x) (numberY : IsNumber y) {r s : ℝ}
    (valueX : value x = r) (valueY : value y = s) : IsRounding (r + s) (x + y) :=
  isRounding_add_unpacked (canonical_unpack _) (canonical_unpack _) numberX numberY valueX valueY

private theorem encode_infinity (sign : Sign) :
    (encode (.infinity sign)).toModel.unpack = .infinity sign :=
  unpack_pack (u := .infinity sign) trivial

/-- An infinite number absorbs every number but the opposite infinity. -/
private theorem unpack_add_infinity (sign : Sign) {x y : Float} (numberX : IsNumber x)
    (numberY : IsNumber y) (notX : x.toModel.unpack ≠ .infinity (-sign))
    (notY : y.toModel.unpack ≠ .infinity (-sign))
    (infinite : x.toModel.unpack = .infinity sign ∨ y.toModel.unpack = .infinity sign) :
    (x + y).toModel.unpack = .infinity sign := by
  change (encode (x.toModel.unpack.add Format.binary64 y.toModel.unpack)).toModel.unpack = _
  suffices absorbed : x.toModel.unpack.add Format.binary64 y.toModel.unpack = .infinity sign by
    rw [absorbed, encode_infinity]
  change x.toModel.unpack.isNaN = false at numberX
  change y.toModel.unpack.isNaN = false at numberY
  generalize x.toModel.unpack = u at *
  generalize y.toModel.unpack = v at *
  rcases infinite with rfl | rfl
  · rcases v with (_ | _) | _ | _ | _ <;> cases sign <;>
      simp_all [Float.Model.UnpackedFloat.isNaN, Float.Model.UnpackedFloat.add, Neg.neg]
  · rcases u with (_ | _) | _ | _ | _ <;> cases sign <;>
      simp_all [Float.Model.UnpackedFloat.isNaN, Float.Model.UnpackedFloat.add, Neg.neg]

theorem value_add_bot {x y : Float} (numberX : IsNumber x) (numberY : IsNumber y)
    (belowX : value x ≠ ⊤) (belowY : value y ≠ ⊤) (infinite : value x = ⊥ ∨ value y = ⊥) :
    IsNumber (x + y) ∧ value (x + y) = ⊥ := by
  have sum := unpack_add_infinity .negative numberX numberY (mt valueOf_eq_top_iff.2 belowX)
    (mt valueOf_eq_top_iff.2 belowY) (infinite.imp valueOf_eq_bot_iff.1 valueOf_eq_bot_iff.1)
  refine ⟨?_, valueOf_eq_bot_iff.2 sum⟩
  change (x + y).toModel.unpack.isNaN = false
  rw [sum]
  rfl

theorem value_add_top {x y : Float} (numberX : IsNumber x) (numberY : IsNumber y)
    (aboveX : value x ≠ ⊥) (aboveY : value y ≠ ⊥) (infinite : value x = ⊤ ∨ value y = ⊤) :
    IsNumber (x + y) ∧ value (x + y) = ⊤ := by
  have sum := unpack_add_infinity .positive numberX numberY (mt valueOf_eq_bot_iff.2 aboveX)
    (mt valueOf_eq_bot_iff.2 aboveY) (infinite.imp valueOf_eq_top_iff.1 valueOf_eq_top_iff.1)
  refine ⟨?_, valueOf_eq_top_iff.2 sum⟩
  change (x + y).toModel.unpack.isNaN = false
  rw [sum]
  rfl

end StatBounds.Binary64
