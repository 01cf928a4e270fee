import StatBounds.Proofs.Encoding.Decisions
import StatBounds.Proofs.Propagation.Counts

/-! # Histograms

The indicators of a histogram tell the bin of each item, and add up to the counts. So a histogram has a solution for
the same values of items and counts as one constraint that counts the items in the bins.
-/

namespace StatBounds

namespace Store

variable {kind : SeriesKind} {name : String} {series counts : List Var} {bins : List Bin} {store after : Store}

def histogramRow (kind : SeriesKind) (first : Nat) (bins : List Bin) (item : Var × Nat) : List Constraint :=
  (bins.zipIdx.map fun bin => .reified {
      indicator := gridVar first bins.length item.2 bin.2
      atoms := kind.membership item.1 bin.1 }) ++
    [.formula (.ofExpr (sumOf ((List.range bins.length).map (gridVar first bins.length item.2))) (.point 1.0))]

def histogramTotal (first width items : Nat) (count : Var × Nat) : Constraint :=
  .sum { terms := (List.range items).map fun item => gridVar first width item count.2, total := count.1 }

def histogramConstraints (kind : SeriesKind) (first : Nat) (series : List Var) (bins : List Bin)
    (counts : List Var) : List Constraint :=
  series.zipIdx.flatMap (histogramRow kind first bins) ++
    counts.zipIdx.map (histogramTotal first bins.length series.length)

def histogramNames (name : String) (series : List Var) (bins : List Bin) : List String :=
  series.zipIdx.flatMap fun item => bins.zipIdx.map fun bin => histogramName name item.2 bin.2

theorem length_histogramNames : (histogramNames name series bins).length = series.length * bins.length := by
  simp [histogramNames, List.length_flatMap]

theorem adds_newHistogramRow {base : Store} {before : List String} {item : Nat} {v : Var}
    (started : before.length = item * bins.length) :
    Adds base before (newHistogramRow kind name bins item v)
      (bins.zipIdx.map fun bin => histogramName name item bin.2)
      (histogramRow kind base.vars.size bins (v, item))
      ((List.range bins.length).map (gridVar base.vars.size bins.length item)) := by
  have indicators : Adds base before
      (bins.zipIdx.mapM fun bin => newIndicator (histogramName name item bin.2) (kind.membership v bin.1))
      (bins.zipIdx.map fun bin => histogramName name item bin.2) _ _ := adds_newIndicators started
  have row : Adds base before (newHistogramRow kind name bins item v) (_ ++ ([] ++ [])) (_ ++ ([_] ++ [])) _ :=
    indicators.bind ((Adds.postExpr _ _).bind (.pure _))
  rwa [List.append_nil, List.append_nil, List.append_nil] at row

theorem filterMap_rows (first width items : Nat) {b : Nat} (inside : b < width) :
    ((List.range items).map fun item => (List.range width).map (gridVar first width item)).filterMap
      (fun row => row[b]?) = (List.range items).map fun item => gridVar first width item b := by
  rw [List.filterMap_map, ← List.filterMap_eq_map]
  refine List.filterMap_congr fun item _ => ?_
  simp [List.getElem?_range inside]

/-- A histogram adds one indicator for each item and bin, and the constraints that tie them to the items and the
    counts. -/
theorem extends_encodeHistogram (ran : encodeHistogram kind name series bins counts store = .ok () after) :
    counts.length = bins.length ∧ Bin.check "encode_histogram" bins = .ok () ∧
    (∀ v ∈ series, store.vars.contains v = true) ∧ (∀ v ∈ counts, store.vars.contains v = true) ∧
    store.Extends after (histogramNames name series bins)
      (histogramConstraints kind store.vars.size series bins counts) := by
  obtain ⟨_, checked, rest⟩ := (Checks.orFail _).peel ran
  have checked := eq_ok_of_orFail checked
  by_cases lengths : counts.length = bins.length
  · rw [if_neg (not_not.2 lengths)] at rest
    obtain ⟨_, items, rest⟩ := (Checks.checkSeries _ kind series).peel rest
    obtain ⟨_, totals, rest⟩ := (Checks.checkVars counts).peel rest
    have items := contains_of_checkSeries items
    have known := contains_of_checkVars totals
    have rows : Adds store.openBatch []
        (series.zipIdx.mapM fun item => newHistogramRow kind name bins item.2 item.1)
        (histogramNames name series bins) (series.zipIdx.flatMap (histogramRow kind store.vars.size bins))
        ((List.range series.length).map fun item =>
          (List.range bins.length).map (gridVar store.vars.size bins.length item)) := by
      have step : ∀ item ∈ series.zipIdx, ∀ before : List String, before.length = 0 + item.2 * bins.length →
          Adds store.openBatch before (newHistogramRow kind name bins item.2 item.1) _ _ _ :=
        fun item _ before started => adds_newHistogramRow (by rw [started, Nat.zero_add])
      rw [← map_zipIdx_snd series]
      exact Adds.mapM (numbered_zipIdx series) (by simp) step (by simp)
    have totals : Adds store.openBatch ([] ++ histogramNames name series bins)
        (counts.zipIdx.forM fun count => postSum
          (((List.range series.length).map fun item =>
            (List.range bins.length).map (gridVar store.vars.size bins.length item)).filterMap
              fun row => row[count.2]?) count.1) []
        (counts.zipIdx.flatMap fun count => [histogramTotal store.vars.size bins.length series.length count]) ⟨⟩ := by
      refine Adds.forM fun count member => ?_
      have inside : count.2 < bins.length := by
        rw [← lengths]
        exact (List.getElem?_eq_some_iff.1 (List.mem_zipIdx_iff_getElem?.1 member)).1
      rw [filterMap_rows _ _ _ inside]
      exact .postSum _ _
    rw [← List.map_eq_flatMap] at totals
    refine ⟨lengths, checked, items, known, Adds.batch ?_ rest⟩
    rw [← List.append_nil (histogramNames name series bins)]
    refine rows.bind ?_
    exact totals
  · rw [if_pos lengths] at rest
    cases rest

theorem mem_histogramConstraints_iff {first : Nat} {c : Constraint} :
    c ∈ histogramConstraints kind first series bins counts ↔
      (∃ i v b bin, series[i]? = some v ∧ bins[b]? = some bin ∧
        c = .reified { indicator := gridVar first bins.length i b, atoms := kind.membership v bin }) ∨
      (∃ i < series.length, c = .formula (.ofExpr
        (sumOf ((List.range bins.length).map (gridVar first bins.length i))) (.point 1.0))) ∨
      ∃ b count, counts[b]? = some count ∧ c = histogramTotal first bins.length series.length (count, b) := by
  simp only [histogramConstraints, histogramRow, List.mem_append, List.mem_flatMap, List.mem_map, List.mem_singleton,
    Prod.exists, List.mem_zipIdx_iff_getElem?]
  constructor
  · rintro (⟨v, i, item, ⟨bin, b, found, rfl⟩ | rfl⟩ | ⟨count, b, found, rfl⟩)
    · exact .inl ⟨i, v, b, bin, item, found, rfl⟩
    · exact .inr (.inl ⟨i, (List.getElem?_eq_some_iff.1 item).1, rfl⟩)
    · exact .inr (.inr ⟨b, count, found, rfl⟩)
  · rintro (⟨i, v, b, bin, item, found, rfl⟩ | ⟨i, inside, rfl⟩ | ⟨b, count, found, rfl⟩)
    · exact .inl ⟨v, i, item, .inl ⟨bin, b, found, rfl⟩⟩
    · exact .inl ⟨_, i, List.getElem?_eq_getElem inside, .inr rfl⟩
    · exact .inr ⟨count, b, found, rfl⟩

theorem encodes_encodeHistogram (ran : encodeHistogram kind name series bins counts store = .ok () after) :
    store.Encodes after (histogramNames name series bins) (series ++ counts)
      (histogramConstraints kind store.vars.size series bins counts) := by
  have grid (i b : Nat) : store.vars.size ≤ (gridVar store.vars.size bins.length i b).index := by
    rw [gridVar, Nat.add_assoc]
    exact Nat.le_add_right _ _
  refine ⟨(extends_encodeHistogram ran).2.2.2.2, fun c member => ?_, fun c member v inScope => ?_, fun r member => ?_⟩
  · rcases mem_histogramConstraints_iff.1 member with ⟨i, v, b, bin, -, -, rfl⟩ | ⟨i, -, rfl⟩ | ⟨b, count, -, rfl⟩
    · trivial
    · exact ⟨_, _, rfl⟩
    · trivial
  · rcases mem_histogramConstraints_iff.1 member with
      ⟨i, w, b, bin, item, -, rfl⟩ | ⟨i, -, rfl⟩ | ⟨b, count, found, rfl⟩
    · rcases List.mem_append.1 inScope with tested | indicator
      · obtain ⟨a, inAtoms, rfl⟩ := List.mem_map.1 tested
        rw [SeriesKind.var_of_mem_membership inAtoms]
        exact .inl (List.mem_append_left _ (List.mem_of_getElem? item))
      · exact .inr (List.mem_singleton.1 indicator ▸ grid i b)
    · obtain ⟨b, -, rfl⟩ := List.mem_map.1 (mem_scope_sumOf inScope)
      exact .inr (grid i b)
    · rcases List.mem_append.1 inScope with term | total
      · obtain ⟨i, -, rfl⟩ := List.mem_map.1 term
        exact .inr (grid i b)
      · obtain rfl := List.mem_singleton.1 total
        exact .inl (List.mem_append_right _ (List.mem_of_getElem? found))
  · rcases mem_histogramConstraints_iff.1 member with ⟨i, v, b, bin, -, -, same⟩ | ⟨i, -, same⟩ | ⟨b, count, -, same⟩
    · exact Constraint.reified.inj same ▸ grid i b
    · cases same
    · cases same

end Store

/-! ## What the constraints say -/

variable {σ τ : Assignment} {kind : SeriesKind} {first : Nat} {series counts : List Var} {bins : List Bin}

open Classical in
/-- Each count is the number of items in its bin. -/
def Counted (series : List Var) (bins : List Bin) (counts : List Var) (σ : Assignment) : Prop :=
  ∀ (b : Nat) (bin : Bin) (count : Var), bins[b]? = some bin → counts[b]? = some count →
    (σ count).reading = series.countP fun v => bin.Has (σ v).reading

/-- Every item lies in exactly one bin, and each count is the number of items in its bin. -/
structure Tallied (series : List Var) (bins : List Bin) (counts : List Var) (σ : Assignment) : Prop where
  inOne : ∀ v ∈ series, Bin.InOne bins (σ v).reading
  counted : Counted series bins counts σ

def TellsBins (first : Nat) (series : List Var) (bins : List Bin) (σ : Assignment) : Prop :=
  ∀ i v b bin, series[i]? = some v → bins[b]? = some bin →
    ((σ (Store.gridVar first bins.length i b)).reading = 1 ↔ bin.Has (σ v).reading)

theorem encloses_one_iff {r : ℝ} : (Interval.point 1.0).Encloses (r : EReal) ↔ r = 1 :=
  Interval.encloses_point_iff Binary64.isNumber_one (by rw [Binary64.value_one, EReal.coe_one])

theorem satisfied_histogramConstraints_iff :
    (∀ c ∈ Store.histogramConstraints kind first series bins counts, c.Satisfied σ) ↔
      TellsBins first series bins σ ∧
      (∀ i < series.length,
        ((List.range bins.length).map fun b => (σ (Store.gridVar first bins.length i b)).reading).sum = 1) ∧
      ∀ b count, counts[b]? = some count →
        ((List.range series.length).map fun i => (σ (Store.gridVar first bins.length i b)).reading).sum =
          (σ count).reading := by
  have reified (v : Var) (bin : Bin) (i b : Nat) :
      (Constraint.reified { indicator := Store.gridVar first bins.length i b
                            atoms := kind.membership v bin }).Satisfied σ ↔
        ((σ (Store.gridVar first bins.length i b)).reading = 1 ↔ bin.Has (σ v).reading) :=
    iff_congr Iff.rfl SeriesKind.membership_iff
  have formula (i : Nat) : (Constraint.formula (.ofExpr
      (Store.sumOf ((List.range bins.length).map (Store.gridVar first bins.length i))) (.point 1.0))).Satisfied σ ↔
        ((List.range bins.length).map fun b => (σ (Store.gridVar first bins.length i b)).reading).sum = 1 := by
    refine Iff.trans Formula.holds_sumOf_iff ?_
    rw [encloses_one_iff, List.map_map]
    rfl
  have sum (b : Nat) (count : Var) : (Store.histogramTotal first bins.length series.length (count, b)).Satisfied σ ↔
      ((List.range series.length).map fun i => (σ (Store.gridVar first bins.length i b)).reading).sum =
        (σ count).reading := by
    change (List.map _ (List.map _ _)).sum = _ ↔ _
    rw [List.map_map]
    rfl
  simp only [Store.histogramConstraints, Store.histogramRow, List.forall_mem_append, List.forall_mem_flatMap,
    List.forall_mem_map, List.forall_mem_singleton, Prod.forall, List.mem_zipIdx_iff_getElem?, reified, formula, sum]
  constructor
  · rintro ⟨rows, totals⟩
    refine ⟨fun i v b bin item found => (rows v i item).1 bin b found, fun i inside => ?_, fun b count found =>
      totals count b found⟩
    exact (rows _ i (List.getElem?_eq_getElem inside)).2
  · rintro ⟨tells, one, totals⟩
    refine ⟨fun v i item => ⟨fun bin b found => tells i v b bin item found, one i ?_⟩, fun count b found =>
      totals b count found⟩
    exact (List.getElem?_eq_some_iff.1 item).1

open Classical in
/-- Indicators that tell the bins add up to one for an item in a bin, and to the numbers of items in the bins. -/
theorem tallied_iff_of_tellsBins (lengths : counts.length = bins.length)
    (truth : ∀ i < series.length, ∀ b < bins.length, σ (Store.gridVar first bins.length i b) = .int 0 ∨
      σ (Store.gridVar first bins.length i b) = .int 1)
    (tells : TellsBins first series bins σ) :
    ((∀ i < series.length,
        ((List.range bins.length).map fun b => (σ (Store.gridVar first bins.length i b)).reading).sum = 1) ∧
      ∀ b count, counts[b]? = some count →
        ((List.range series.length).map fun i => (σ (Store.gridVar first bins.length i b)).reading).sum =
          (σ count).reading) ↔ Tallied series bins counts σ := by
  have value (i : Nat) (v : Var) (b : Nat) (bin : Bin) (item : series[i]? = some v) (found : bins[b]? = some bin) :
      (σ (Store.gridVar first bins.length i b)).reading = if bin.Has (σ v).reading then 1 else 0 := by
    have inside := (List.getElem?_eq_some_iff.1 item).1
    have inside' := (List.getElem?_eq_some_iff.1 found).1
    rw [Choice.eq_truth (truth i inside b inside') (tells i v b bin item found), Choice.reading_truth]
  have row (i : Nat) (v : Var) (item : series[i]? = some v) :
      ((List.range bins.length).map fun b => (σ (Store.gridVar first bins.length i b)).reading).sum =
        bins.countP fun bin => bin.Has (σ v).reading :=
    sum_range_eq_countP fun b bin found => value i v b bin item found
  have column (b : Nat) (bin : Bin) (found : bins[b]? = some bin) :
      ((List.range series.length).map fun i => (σ (Store.gridVar first bins.length i b)).reading).sum =
        series.countP fun v => bin.Has (σ v).reading :=
    sum_range_eq_countP fun i v item => value i v b bin item found
  have one (i : Nat) (v : Var) (item : series[i]? = some v) :
      ((List.range bins.length).map fun b => (σ (Store.gridVar first bins.length i b)).reading).sum = 1 ↔
        Bin.InOne bins (σ v).reading := by
    rw [row i v item, Nat.cast_eq_one, Bin.inOne_iff_countP]
  constructor
  · rintro ⟨rows, totals⟩
    refine ⟨fun v member => ?_, fun b bin count found there => ?_⟩
    · obtain ⟨i, item⟩ := List.mem_iff_getElem?.1 member
      exact (one i v item).1 (rows i (List.getElem?_eq_some_iff.1 item).1)
    · rw [← column b bin found]
      exact (totals b count there).symm
  · rintro ⟨inOne, counted⟩
    refine ⟨fun i inside => ?_, fun b count there => ?_⟩
    · exact (one i _ (List.getElem?_eq_getElem inside)).2 (inOne _ (List.getElem_mem inside))
    · have inside := (List.getElem?_eq_some_iff.1 there).1
      have found := List.getElem?_eq_getElem (lengths ▸ inside : b < bins.length)
      rw [column b _ found, counted b _ count found there]

/-! ## Solutions -/

theorem Tallied.congr (tallied : Tallied series bins counts σ) (items : ∀ v ∈ series, τ v = σ v)
    (totals : ∀ v ∈ counts, τ v = σ v) : Tallied series bins counts τ where
  inOne v member := by
    rw [items v member]
    exact tallied.inOne v member
  counted b bin count found there := by
    rw [totals count (List.mem_of_getElem? there), tallied.counted b bin count found there]
    refine congrArg Nat.cast (List.countP_congr fun v member => ?_)
    rw [items v member]

section

variable {name : String} {store after : Store}

theorem Store.solves_histogram_iff
    (ran : encodeHistogram kind name series bins counts store = .ok () after) :
    store.Solves after σ ↔
      (∀ i < series.length, ∀ b < bins.length, σ (gridVar store.vars.size bins.length i b) = .int 0 ∨
        σ (gridVar store.vars.size bins.length i b) = .int 1) ∧
      TellsBins store.vars.size series bins σ ∧ Tallied series bins counts σ := by
  obtain ⟨lengths, -, -, -, extended⟩ := extends_encodeHistogram ran
  have grid : (∀ k < (histogramNames name series bins).length, σ ⟨store.vars.size + k⟩ = .int 0 ∨
      σ ⟨store.vars.size + k⟩ = .int 1) ↔
      ∀ i < series.length, ∀ b < bins.length, σ (gridVar store.vars.size bins.length i b) = .int 0 ∨
        σ (gridVar store.vars.size bins.length i b) = .int 1 := by
    rw [length_histogramNames]
    exact Assignment.forall_gridVar_iff (p := fun v => σ v = .int 0 ∨ σ v = .int 1)
  rw [extended.solves_iff, grid, satisfied_histogramConstraints_iff]
  refine and_congr_right fun truth => and_congr_right fun tells => ?_
  exact tallied_iff_of_tellsBins lengths truth tells

/-- The indicators are left one choice by the values of the items and counts. They have a choice exactly if the
    counts are right. -/
theorem Store.exists_solves_histogram_iff
    (ran : encodeHistogram kind name series bins counts store = .ok () after) :
    ((∃ τ, (∀ v, store.vars.contains v = after.vars.contains v → τ v = σ v) ∧ store.Solves after τ) ↔
      Tallied series bins counts σ) ∧
    ∀ τ τ', (∀ v, store.vars.contains v = after.vars.contains v → τ v = τ' v) →
      store.Solves after τ → store.Solves after τ' → τ = τ' := by
  obtain ⟨-, -, items, totals, extended⟩ := extends_encodeHistogram ran
  have new (v : Var) : store.vars.contains v = after.vars.contains v ↔
      ¬ (store.vars.size ≤ v.index ∧ v.index < store.vars.size + series.length * bins.length) := by
    have length : (histogramNames name series bins).length = series.length * bins.length := length_histogramNames
    rw [← length]
    exact extended.contains_eq_iff
  have old (v : Var) (known : store.vars.contains v = true) : store.vars.contains v = after.vars.contains v :=
    extended.contains_eq known
  let tells (σ : Assignment) (i b : Nat) : Prop :=
    ∃ v bin, series[i]? = some v ∧ bins[b]? = some bin ∧ bin.Has (σ v).reading
  have unique (τ : Assignment) (solves : store.Solves after τ) (i : Nat) (inItem : i < series.length) (b : Nat)
      (inBin : b < bins.length) : τ (gridVar store.vars.size bins.length i b) = .truth (tells τ i b) := by
    obtain ⟨truth, tellsBins, -⟩ := (solves_histogram_iff ran).1 solves
    have item := List.getElem?_eq_getElem inItem
    have bin := List.getElem?_eq_getElem inBin
    refine Choice.eq_truth (truth i inItem b inBin) ((tellsBins i _ b _ item bin).trans ?_)
    simp [tells, item, bin]
  refine ⟨⟨?_, fun tallied => ?_⟩, fun τ τ' same solves solves' => ?_⟩
  · rintro ⟨τ, same, solves⟩
    obtain ⟨-, -, tallied⟩ := (solves_histogram_iff ran).1 solves
    exact tallied.congr (fun v member => (same v (old v (items v member))).symm)
      fun v member => (same v (old v (totals v member))).symm
  · let τ := σ.withGrid store.vars.size series.length bins.length (tells σ)
    have off (v : Var) (known : store.vars.contains v = true) : τ v = σ v :=
      Assignment.withGrid_off ((new v).1 (old v known))
    have on (i : Nat) (inItem : i < series.length) (b : Nat) (inBin : b < bins.length) :
        τ (gridVar store.vars.size bins.length i b) = .truth (tells σ i b) :=
      Assignment.withGrid_gridVar inItem inBin
    refine ⟨τ, fun v same => Assignment.withGrid_off ((new v).1 same), (solves_histogram_iff ran).2 ⟨?_, ?_, ?_⟩⟩
    · intro i inItem b inBin
      rw [on i inItem b inBin]
      exact Choice.truth_cases _
    · intro i v b bin item found
      have inItem := (List.getElem?_eq_some_iff.1 item).1
      have inBin := (List.getElem?_eq_some_iff.1 found).1
      rw [on i inItem b inBin, Choice.reading_truth_eq_one, off v (items v (List.mem_of_getElem? item))]
      simp [tells, item, found]
    · exact tallied.congr (fun v member => off v (items v member)) fun v member => off v (totals v member)
  · have grid := Assignment.eq_withGrid (σ := τ') (fun v out => same v ((new v).2 out)) (unique τ solves)
    have grid' := Assignment.eq_withGrid (σ := τ') (fun v _ => rfl) (unique τ' solves')
    have agree : tells τ = tells τ' := by
      funext i b
      refine propext (exists_congr fun v => exists_congr fun bin => and_congr_right fun item => ?_)
      rw [same v (old v (items v (List.mem_of_getElem? item)))]
    rw [grid, agree]
    exact grid'.symm

end

/-! ## The global constraint -/

theorem binCount_holds_iff (lengths : counts.length = bins.length) :
    BinCount.Holds { filter := { bins }, items := series, counts } σ ↔ Tallied series bins counts σ := by
  classical
  have inBin (b : Nat) (bin : Bin) (found : bins[b]? = some bin) (v : Var) :
      BinCount.InBin { filter := { bins }, items := series, counts } σ b v ↔ bin.Has (σ v).reading := by
    constructor
    · rintro ⟨other, same, has⟩
      obtain rfl := Option.some.inj (found.symm.trans same)
      exact has
    · intro has
      exact ⟨bin, found, has⟩
  constructor
  · intro holds
    refine ⟨holds.one, fun b bin count found there => ?_⟩
    rw [holds.counted b count there]
    simp only [inBin b bin found]
  · intro tallied
    refine ⟨tallied.inOne, fun b count there => ?_⟩
    have inside := (List.getElem?_eq_some_iff.1 there).1
    have found := List.getElem?_eq_getElem (lengths ▸ inside : b < bins.length)
    rw [tallied.counted b _ count found there]
    simp only [inBin b _ found]

/-- Sorted bins leave no choice between bins. -/
theorem tallied_iff_of_sorted (sorted : bins.Pairwise fun a b => Binary64.value a.ub ≤ Binary64.value b.lb) :
    Tallied series bins counts σ ↔
      (∀ v ∈ series, ∃ bin ∈ bins, bin.Has (σ v).reading) ∧ Counted series bins counts σ := by
  simp only [← Bin.inOne_iff sorted]
  exact ⟨fun tallied => ⟨tallied.inOne, tallied.counted⟩, fun both => ⟨both.1, both.2⟩⟩

end StatBounds
