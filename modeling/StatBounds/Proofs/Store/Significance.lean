import StatBounds.Proofs.Binary64.Margins
import StatBounds.Proofs.Store.Precision

/-! # Which narrowings are recorded

Whether a real variable has lost enough of its width is decided by computed widths, so every width, the loss and the
part of the old width to compare it with are rounded. Bounds and widths are multiples of the least number, and such a
multiple is hardly moved by rounding. So half of an exact width that exceeds the precision twice is always more than a
quarter of the computed one. But a width may be too large for a finite number. Then only infinite bounds are counted,
and there are none.
-/

namespace StatBounds

open Binary64 (IsNumber IsRounding Rounds value margin tiny)

/-! ## Bounded intervals -/

/-- An interval with finite bounds in the right order. -/
structure Interval.Spans (i : Interval) (a b : ℝ) : Prop where
  proper : i.Proper
  lower : value i.lo = a
  upper : value i.hi = b
  ordered : a ≤ b

namespace Interval

variable {i : Interval} {a b : ℝ}

theorem Spans.notEmpty (spans : i.Spans a b) : i.isEmpty = false := by
  rw [isEmpty_eq_false_iff spans.proper, spans.lower, spans.upper, EReal.coe_le_coe_iff]
  exact spans.ordered

theorem Spans.isRounding_width (spans : i.Spans a b) : IsRounding (b - a) i.width :=
  Interval.isRounding_width spans.proper spans.notEmpty spans.lower spans.upper

theorem exists_spans (proper : i.Proper) (some : i.isEmpty = false) (finiteLo : i.lo.isFinite = true)
    (finiteHi : i.hi.isFinite = true) : ∃ a b : ℝ, i.Spans a b := by
  obtain ⟨a, lower⟩ := Binary64.exists_real_of_isFinite finiteLo
  obtain ⟨b, upper⟩ := Binary64.exists_real_of_isFinite finiteHi
  have ordered := (isEmpty_eq_false_iff proper).1 some
  rw [lower, upper, EReal.coe_le_coe_iff] at ordered
  exact ⟨a, b, proper, lower, upper, ordered⟩

theorem Spans.unboundedSides (spans : i.Spans a b) : i.unboundedSides = 0 := by
  rw [Interval.unboundedSides, Binary64.isInf_of_real spans.lower, Binary64.isInf_of_real spans.upper]
  rfl

/-- A width that is rounded to a finite number is moved by a small part of it only. -/
theorem Spans.near_width (spans : i.Spans a b) {w : ℝ} (finite : value i.width = w) :
    |w - (b - a)| ≤ (b - a) * (2 * margin) :=
  (spans.isRounding_width.near (sub_nonneg.2 spans.ordered) finite).2
    (Binary64.exists_sub_eq_mul_tiny spans.upper spans.lower)

end Interval

/-! ## Rounded comparisons -/

/-- A valid precision is finite and not smaller than the least positive number. -/
theorem exists_of_validPrecision {x : Float} (valid : validPrecision x = true) :
    IsNumber x ∧ ∃ p : ℝ, value x = p ∧ tiny ≤ p := by
  simp only [validPrecision, Bool.and_eq_true, decide_eq_true_eq, gt_iff_lt] at valid
  obtain ⟨-, number, positive⟩ := Binary64.lt_iff.1 valid.2
  obtain ⟨p, finite⟩ := Binary64.exists_real_of_isFinite valid.1
  rw [Binary64.value_zero] at positive
  have least := Binary64.tiny_le positive
  rw [finite, EReal.coe_le_coe_iff] at least
  exact ⟨number, p, finite, least⟩

theorem two_mul_lt_iff {p w : ℝ} : 2 * (p : EReal) < w ↔ 2 * p < w := by
  have two : (2 : EReal) = ((2 : ℝ) : EReal) := rfl
  rw [two, ← EReal.coe_mul, EReal.coe_lt_coe_iff]

/-- A multiple of the least number that exceeds another one twice exceeds it by the least number. -/
theorem three_tiny_le {w p : ℝ} (multiple : ∃ k : ℤ, w = k * tiny) (least : tiny ≤ p) (wide : 2 * p < w) :
    3 * tiny ≤ w :=
  Binary64.le_of_lt_add_tiny ⟨3, by norm_num⟩ multiple (by linarith)

theorem value_quarter : value 0.25 = ((1 / 4 : ℝ) : EReal) := by
  have unpacked : (0.25 : Float).toModel.unpack = .finite .positive (2 ^ 52) (-54) (by decide) := by rfl
  rw [value, unpacked, Binary64.valueOf_finite_positive]
  norm_num

namespace Variables

variable {ratio precision : Float} {old new : Interval} {a b c d : ℝ}

/-- A part of at most a quarter of a finite width is computed as hardly more than that. -/
theorem value_part_le {width : Float} {w : ℝ} (number : IsNumber ratio) (numberW : IsNumber width)
    (quarter : value ratio ≤ ((1 / 4 : ℝ) : EReal)) (finite : value width = w) (positive : 0 < w) :
    IsNumber (ratio * width) ∧
      value (ratio * width) ≤ ((w / 4 + w / 4 * (2 * margin) + tiny / 2 : ℝ) : EReal) := by
  have positiveW : (0 : EReal) < value width := by
    rw [finite]
    exact EReal.coe_pos.2 positive
  have rounds : Rounds (value ratio * value width) (ratio * width) := by
    induction reading : value ratio with
    | bot => exact reading ▸ Binary64.rounds_mul number numberW (by simp [reading]) positiveW.ne'
    | top => exact absurd quarter (by simp [reading])
    | coe r =>
        rw [finite, ← EReal.coe_mul]
        exact (Binary64.isRounding_mul number numberW reading finite).rounds
  have rounding := Binary64.isRounding_mul (by rfl) numberW value_quarter finite
  have le : value ratio * value width ≤ ((1 / 4 * w : ℝ) : EReal) := by
    rw [EReal.coe_mul, ← finite]
    exact mul_le_mul_of_nonneg_right quarter positiveW.le
  obtain ⟨v, real, -, -⟩ := rounding.exists_real (by linarith) numberW finite (by linarith)
  have near := (rounding.near (by linarith) real).1
  refine ⟨rounds.isNumber, (rounds.mono rounding.rounds le).trans ?_⟩
  rw [real, EReal.coe_le_coe_iff]
  linarith [(abs_le.1 near).2]

/-- A narrowing that halves a bounded interval is significant unless the width is computed as infinite. -/
theorem significant_of_halves (before : old.Spans a b) (after : new.Spans c d)
    (precise : validPrecision precision = true) (wide : 2 * value precision < ((b - a : ℝ) : EReal))
    (half : d - c ≤ (b - a) / 2) (quarter : ratio ≤ 0.25) :
    significant ratio precision old new = !old.width.isInf := by
  unfold significant
  cases infinite : old.width.isInf with
  | true => simp [before.unboundedSides, after.unboundedSides]
  | false =>
      obtain ⟨numberP, p, valueP, least⟩ := exists_of_validPrecision precise
      rw [valueP, two_mul_lt_iff] at wide
      have enough := three_tiny_le (Binary64.exists_sub_eq_mul_tiny before.upper before.lower) least wide
      have small := Binary64.two_margin
      have positive := Binary64.tiny_pos
      -- Both widths and their difference are finite, so rounding moves them by a small part only.
      obtain ⟨w, valueW⟩ := Binary64.exists_real_of_not_isInf infinite
      have nearW := abs_le.1 (before.near_width valueW)
      have numberW := before.isRounding_width.isNumber
      have shorter : d - c ≤ w := by
        rw [small] at nearW
        linarith
      have nonneg := sub_nonneg.2 after.ordered
      obtain ⟨n, valueN, nonnegN, -⟩ := after.isRounding_width.exists_real nonneg numberW valueW shorter
      have nearN := abs_le.1 (after.near_width valueN)
      have numberN := after.isRounding_width.isNumber
      have loss := Binary64.isRounding_sub numberW numberN valueW valueN
      rw [small] at nearW nearN
      have gap : 0 ≤ w - n := by linarith
      obtain ⟨l, valueL, -, -⟩ := loss.exists_real gap numberW valueW (by linarith)
      have nearL := abs_le.1 ((loss.near gap valueL).2 (Binary64.exists_sub_eq_mul_tiny valueW valueN))
      obtain ⟨number, -, quarter⟩ := Binary64.le_iff.1 quarter
      obtain ⟨numberR, part⟩ := value_part_le number numberW (value_quarter ▸ quarter) valueW (by linarith)
      rw [small] at nearL part
      have wider : precision < old.width := by
        rw [Binary64.lt_iff, valueP, valueW, EReal.coe_lt_coe_iff]
        exact ⟨numberP, numberW, by linarith⟩
      have lost : ratio * old.width < old.width - new.width := by
        rw [Binary64.lt_iff, valueL]
        exact ⟨numberR, loss.isNumber, part.trans_lt (EReal.coe_lt_coe_iff.2 (by linarith))⟩
      simp [wider, lost]

end Variables

/-! ## Narrowing -/

/-- An interval leaves at most half of a bounded real domain that is wider than twice its precision. -/
def RealDomain.HalvedBy (r : RealDomain) (onto : Interval) : Prop :=
  ∃ a b c d : ℝ, r.interval.Spans a b ∧ (r.interval.intersect onto).Spans c d ∧
    2 * value r.precision < ((b - a : ℝ) : EReal) ∧ d - c ≤ (b - a) / 2

/-- Such a domain is the one of a variable. -/
def Variables.HalvedBy (vars : Variables) (v : Var) (onto : Interval) : Prop :=
  ∃ x r, vars.get? v = some x ∧ x.domain = .real r ∧ r.HalvedBy onto

theorem RealDomain.HalvedBy.moves {r : RealDomain} {onto : Interval} (halved : r.HalvedBy onto)
    (precise : validPrecision r.precision = true) : (r.interval.intersect onto).sameBounds r.interval = false := by
  obtain ⟨a, b, c, d, before, after, wide, half⟩ := halved
  obtain ⟨-, p, valueP, least⟩ := exists_of_validPrecision precise
  rw [valueP, two_mul_lt_iff] at wide
  have positive := Binary64.tiny_pos
  rw [← Bool.not_eq_true, Interval.sameBounds, Bool.and_eq_true, Binary64.beq_iff, Binary64.beq_iff, before.lower,
    before.upper, after.lower, after.upper, EReal.coe_eq_coe_iff, EReal.coe_eq_coe_iff]
  rintro ⟨⟨-, -, rfl⟩, -, -, rfl⟩
  linarith

/-- Narrowing that halves a variable succeeds, and records the variable unless its width is computed as infinite. -/
theorem Variables.HalvedBy.narrow {vars : Variables} {v : Var} {onto : Interval} (halved : vars.HalvedBy v onto)
    (precise : vars.Precise) (quarter : vars.ratio ≤ 0.25) :
    ∃ after, Variables.narrow v onto vars = .ok true after ∧
      after.changed = if (vars.bounds v).width.isInf then vars.changed else vars.changed.push v := by
  obtain ⟨x, r, found, domain, halved⟩ := halved
  have valid := precise v x r found domain
  have moves := halved.moves valid
  obtain ⟨a, b, c, d, before, after, wide, half⟩ := halved
  have bounds : vars.bounds v = r.interval := by simp only [Variables.bounds, found, domain, Domain.hull]
  have ratio (old new : Domain) : ((vars.save v old).setDomain v new).ratio = vars.ratio := by
    unfold Variables.save
    split_ifs <;> rfl
  let replaced := (vars.save v x.domain).setDomain v (.real { r with interval := r.interval.intersect onto })
  have same : replaced.changed = vars.changed := changed_replaced vars v _ _
  refine ⟨if r.interval.width.isInf then replaced else replaced.record v, ?_, ?_⟩
  · rw [narrow_eq_real found domain]
    simp only [moves, after.notEmpty, Bool.false_eq_true, if_false, ratio,
      significant_of_halves before after valid wide half quarter]
    cases r.interval.width.isInf <;> rfl
  · rw [bounds]
    cases r.interval.width.isInf <;> simp [Variables.record, same]

end StatBounds
