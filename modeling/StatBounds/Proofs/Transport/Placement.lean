import StatBounds.Proofs.Transport.Blueprint

/-! # Placements and flow

A placement of the items within the bounds leaves no set of nodes with less capacity than is demanded.
Conversely a flow that meets all demands sends every item along exactly one of its arcs, and as many
items through a bin as its bounds allow. So the demands can be met iff there is a placement, and the
saturated arcs of the items are one.
-/

namespace StatBounds.Transportation

open Network (indicator SameShape)

/-- A bin for each item, among those it is allowed in, such that the number of items of every bin lies
    within the bounds. -/
structure Placement (t : Transportation) (bins : List Nat) : Prop where
  allowed : List.Forall₂ (fun b choices => b ∈ choices) bins t.allowed
  counts : ∀ b < t.bins, (t.boundsOf b).1 ≤ bins.count b ∧ bins.count b ≤ (t.boundsOf b).2

/-- The sum of the least counts. -/
def lowerSum (t : Transportation) : Nat :=
  (t.bounds.map Prod.fst).sum

/-! ## Counting items -/

theorem count_eq_sum (bins : List Nat) (b : Nat) :
    (bins.count b : Int) = ∑ i ∈ Finset.range bins.length, if bins.getD i 0 = b then 1 else 0 := by
  induction bins with
  | nil => simp
  | cons first rest ih =>
      rw [List.length_cons, Finset.sum_range_succ', List.count_cons]
      simp only [List.getD_cons_succ, List.getD_cons_zero, Nat.cast_add, ih, beq_iff_eq]
      split_ifs <;> simp

namespace Placement

variable {t : Transportation} {bins : List Nat}

theorem length_eq (placement : Placement t bins) : bins.length = t.items :=
  placement.allowed.length_eq

theorem mem_allowed (placement : Placement t bins) {i : Nat} (inside : i < t.items) :
    bins.getD i 0 ∈ t.allowed.getD i [] := by
  have insideBins : i < bins.length := placement.length_eq ▸ inside
  have := placement.allowed.get insideBins inside
  simpa [List.getD_eq_getElem?_getD, insideBins, show i < t.allowed.length from inside] using this

theorem bin_lt (placement : Placement t bins) {i : Nat} (inside : i < t.items) :
    bins.getD i 0 < t.bins := by
  have member := placement.mem_allowed inside
  rw [List.getD_eq_getElem?_getD, List.getElem?_eq_getElem (show i < t.allowed.length from inside)] at member
  exact t.inRange _ (List.getElem_mem _) _ member

theorem sum_count (placement : Placement t bins) (weight : Nat → Int) :
    ∑ b ∈ Finset.range t.bins, weight b * bins.count b =
      ∑ i ∈ Finset.range t.items, weight (bins.getD i 0) := by
  simp only [count_eq_sum, placement.length_eq, Finset.mul_sum]
  rw [Finset.sum_comm]
  refine Finset.sum_congr rfl fun i member => ?_
  have inside := placement.bin_lt (Finset.mem_range.1 member)
  simp only [mul_ite, mul_one, mul_zero]
  rw [Finset.sum_ite_eq, if_pos (Finset.mem_range.2 inside)]

end Placement

/-! ## A placement meets the demands -/

theorem sum_bounds (t : Transportation) (read : Nat × Nat → Nat) :
    ((t.bounds.map read).sum : Int) = ∑ b ∈ Finset.range t.bins, (read (t.boundsOf b) : Int) := by
  have general (bounds : List (Nat × Nat)) : ((bounds.map read).sum : Int) =
      ∑ b ∈ Finset.range bounds.length, (read (bounds.getD b (0, 0)) : Int) := by
    induction bounds with
    | nil => simp
    | cons first rest ih =>
        rw [List.length_cons, Finset.sum_range_succ', List.map_cons, List.sum_cons]
        simp only [List.getD_cons_succ, List.getD_cons_zero, Nat.cast_add, ih]
        ring
  exact general t.bounds

theorem lowerSum_eq (t : Transportation) :
    (t.lowerSum : Int) = ∑ b ∈ Finset.range t.bins, ((t.boundsOf b).1 : Int) :=
  t.sum_bounds Prod.fst

section Flow

variable {t : Transportation} {choices : List (List (Nat × Nat))} {net : Network}
  {place : Nat → Nat} {last : Nat}

theorem Blueprint.outflow_eq (blueprint : Blueprint t choices net place last) (set : Finset Nat) :
    let crossing (source target : Nat) (capacity : Int) : Int :=
      if source ∈ set ∧ target ∉ set then capacity else 0
    net.outflow set =
      ∑ i ∈ Finset.range t.items, crossing t.layout.demandSource (t.layout.item i) 1 +
      crossing t.layout.source t.layout.demandSink t.items +
      ∑ i ∈ Finset.range t.items, ((choices.getD i []).map fun choice =>
        crossing (t.layout.item i) (t.layout.bin choice.2) 1).sum +
      ∑ b ∈ Finset.range t.bins,
        (crossing (t.layout.bin b) t.layout.sink ((t.boundsOf b).2 - (t.boundsOf b).1) +
          (crossing t.layout.demandSource t.layout.sink (t.boundsOf b).1 +
            crossing (t.layout.bin b) t.layout.demandSink (t.boundsOf b).1)) +
      crossing t.layout.sink t.layout.source t.items := by
  intro crossing
  rw [Network.outflow_eq_sumArcs blueprint.built.even, blueprint.sum]
  congr 1
  · congr 1
    · congr 1
      · congr 1
        · refine Finset.sum_congr rfl fun i member => ?_
          exact (blueprint.supply i (Finset.mem_range.1 member)).share_eq set
        · exact blueprint.owed.share_eq set
      · refine Finset.sum_congr rfl fun i _ => congrArg List.sum (List.map_congr_left fun choice member => ?_)
        exact (blueprint.choice i choice member).share_eq set
    · refine Finset.sum_congr rfl fun b member => ?_
      have passes := blueprint.passes b (Finset.mem_range.1 member)
      rw [sumPasses, passes.pass.share_eq set]
      congr 1
      split_ifs with some
      · rw [(passes.demand some).share_eq set, (passes.owed some).share_eq set]
      · have none : (t.boundsOf b).1 = 0 := by omega
        simp [crossing, none]
  · exact blueprint.back.share_eq set

theorem Blueprint.choices_getD (blueprint : Blueprint t choices net place last) (i : Nat) :
    (choices.getD i []).map Prod.snd = t.allowed.getD i [] := by
  rw [← blueprint.allowed, List.getD_eq_getElem?_getD, List.getD_eq_getElem?_getD, List.getElem?_map]
  cases choices[i]? <;> rfl

/-- With a placement every set of nodes that separates the demands has the capacity to meet them. -/
theorem Blueprint.le_outflow (blueprint : Blueprint t choices net place last) {bins : List Nat}
    (placement : Placement t bins) {set : Finset Nat} (demandSource : t.layout.demandSource ∈ set)
    (demandSink : t.layout.demandSink ∉ set) : (t.items + t.lowerSum : Int) ≤ net.outflow set := by
  let target (b : Nat) : Int := indicator set (t.layout.bin b)
  -- An item outside of the set costs one unit, and so does one inside whose bin is outside.
  have itemShare (i : Nat) (member : i ∈ Finset.range t.items) :
      1 - target (bins.getD i 0) ≤
        (if t.layout.demandSource ∈ set ∧ t.layout.item i ∉ set then (1 : Int) else 0) +
          ((choices.getD i []).map fun choice =>
            if t.layout.item i ∈ set ∧ t.layout.bin choice.2 ∉ set then (1 : Int) else 0).sum := by
    have small := Finset.mem_range.1 member
    have nonneg : ∀ term ∈ (choices.getD i []).map fun choice =>
        if t.layout.item i ∈ set ∧ t.layout.bin choice.2 ∉ set then (1 : Int) else 0, 0 ≤ term := by
      intro term member
      obtain ⟨choice, -, rfl⟩ := List.mem_map.1 member
      split_ifs <;> decide
    have sumNonneg := List.sum_nonneg nonneg
    obtain ⟨choice, chosen, bin⟩ : ∃ choice ∈ choices.getD i [], choice.2 = bins.getD i 0 := by
      have allowed := placement.mem_allowed small
      rw [← blueprint.choices_getD] at allowed
      simpa using allowed
    have single := List.single_le_sum nonneg _ (List.mem_map_of_mem chosen)
    simp only [target, indicator, bin] at single ⊢
    simp only [demandSource, true_and]
    split_ifs at single ⊢ <;> simp_all
  have items := Finset.sum_le_sum itemShare
  rw [Finset.sum_add_distrib, Finset.sum_sub_distrib, Finset.sum_const, Finset.card_range, nsmul_eq_mul,
    mul_one] at items
  have weight (b : Nat) : 0 ≤ target b ∧ 0 ≤ 1 - target b := by
    simp only [target, indicator]
    split_ifs <;> decide
  rw [blueprint.outflow_eq, lowerSum_eq]
  dsimp only
  by_cases sink : t.layout.sink ∈ set
  · -- The least counts of the bins outside have to come from items that go there.
    have counted := placement.sum_count fun b => 1 - target b
    have bound : ∑ b ∈ Finset.range t.bins, (1 - target b) * (t.boundsOf b).1 ≤
        ∑ b ∈ Finset.range t.bins, (1 - target b) * bins.count b := by
      refine Finset.sum_le_sum fun b member => mul_le_mul_of_nonneg_left ?_ (weight b).2
      exact_mod_cast (placement.counts b (Finset.mem_range.1 member)).1
    have passed : ∑ b ∈ Finset.range t.bins,
        ((if t.layout.bin b ∈ set ∧ t.layout.sink ∉ set
          then ((t.boundsOf b).2 - (t.boundsOf b).1 : Int) else 0) +
        ((if t.layout.demandSource ∈ set ∧ t.layout.sink ∉ set then ((t.boundsOf b).1 : Int) else 0) +
          (if t.layout.bin b ∈ set ∧ t.layout.demandSink ∉ set then ((t.boundsOf b).1 : Int) else 0))) =
        ∑ b ∈ Finset.range t.bins, ((t.boundsOf b).1 : Int) -
          ∑ b ∈ Finset.range t.bins, (1 - target b) * (t.boundsOf b).1 := by
      rw [← Finset.sum_sub_distrib]
      refine Finset.sum_congr rfl fun b _ => ?_
      by_cases within : t.layout.bin b ∈ set <;> simp [target, indicator, within, sink, demandSink]
    have around : (if t.layout.source ∈ set ∧ t.layout.demandSink ∉ set then (t.items : Int) else 0) +
        (if t.layout.sink ∈ set ∧ t.layout.source ∉ set then (t.items : Int) else 0) = t.items := by
      by_cases source : t.layout.source ∈ set <;> simp [source, sink, demandSink]
    rw [passed]
    simp only [Finset.sum_sub_distrib, Finset.sum_const, Finset.card_range, nsmul_eq_mul,
      mul_one] at counted
    linarith
  · -- The bins inside have room for the items that stay there.
    have counted := placement.sum_count target
    have bound : ∑ b ∈ Finset.range t.bins, target b * bins.count b ≤
        ∑ b ∈ Finset.range t.bins, target b * (t.boundsOf b).2 := by
      refine Finset.sum_le_sum fun b member => mul_le_mul_of_nonneg_left ?_ (weight b).1
      exact_mod_cast (placement.counts b (Finset.mem_range.1 member)).2
    have passed : ∑ b ∈ Finset.range t.bins,
        ((if t.layout.bin b ∈ set ∧ t.layout.sink ∉ set
          then ((t.boundsOf b).2 - (t.boundsOf b).1 : Int) else 0) +
        ((if t.layout.demandSource ∈ set ∧ t.layout.sink ∉ set then ((t.boundsOf b).1 : Int) else 0) +
          (if t.layout.bin b ∈ set ∧ t.layout.demandSink ∉ set then ((t.boundsOf b).1 : Int) else 0))) =
        ∑ b ∈ Finset.range t.bins, ((t.boundsOf b).1 : Int) +
          ∑ b ∈ Finset.range t.bins, target b * (t.boundsOf b).2 := by
      rw [← Finset.sum_add_distrib]
      refine Finset.sum_congr rfl fun b _ => ?_
      by_cases within : t.layout.bin b ∈ set
      · simp [target, indicator, within, sink, demandSink, demandSource]
        ring
      · simp [target, indicator, within, sink, demandSource]
    have around : 0 ≤ (if t.layout.source ∈ set ∧ t.layout.demandSink ∉ set then (t.items : Int) else 0) := by
      split_ifs <;> positivity
    have back : (if t.layout.sink ∈ set ∧ t.layout.source ∉ set then (t.items : Int) else 0) = 0 :=
      if_neg fun both => sink both.1
    rw [passed, back]
    linarith

/-! ## The flow that meets the demands -/

theorem Blueprint.flow_eq (blueprint : Blueprint t choices net place last) {residual : Network}
    (shape : SameShape net residual) (set : Finset Nat) :
    let carried (source target edge : Nat) : Int :=
      (indicator set source - indicator set target) * residual.flow edge
    net.outflow set - residual.outflow set =
      ∑ i ∈ Finset.range t.items, carried t.layout.demandSource (t.layout.item i) (2 * i) +
      carried t.layout.source t.layout.demandSink (2 * t.items) +
      ∑ i ∈ Finset.range t.items, ((choices.getD i []).map fun choice =>
        carried (t.layout.item i) (t.layout.bin choice.2) choice.1).sum +
      ∑ b ∈ Finset.range t.bins,
        (carried (t.layout.bin b) t.layout.sink (place b) +
          if 0 < (t.boundsOf b).1 then
            carried t.layout.demandSource t.layout.sink (place b + 2) +
              carried (t.layout.bin b) t.layout.demandSink (place b + 4)
          else 0) +
      carried t.layout.sink t.layout.source last := by
  intro carried
  rw [← Network.sumArcs_flow blueprint.built shape, blueprint.sum]
  have along {edge source target : Nat} {capacity : Int} (arc : net.HasArc edge source target capacity) :
      (indicator set (net.tail edge) - indicator set (net.head edge)) * residual.flow edge =
        carried source target edge := by
    rw [arc.tail, arc.head]
  congr 1
  · congr 1
    · congr 1
      · congr 1
        · exact Finset.sum_congr rfl fun i member => along (blueprint.supply i (Finset.mem_range.1 member))
        · exact along blueprint.owed
      · refine Finset.sum_congr rfl fun i _ => congrArg List.sum (List.map_congr_left fun choice member => ?_)
        exact along (blueprint.choice i choice member)
    · refine Finset.sum_congr rfl fun b member => ?_
      have passes := blueprint.passes b (Finset.mem_range.1 member)
      rw [sumPasses, along passes.pass]
      congr 1
      split_ifs with some
      · rw [along (passes.demand some), along (passes.owed some)]
      · rfl
  · exact along blueprint.back

variable {residual : Network} {total : Int}

/-- Which nodes of a problem are a given node, as ones and zeros. -/
structure Marks (t : Transportation) (node : Nat) (item bin : Nat → Int)
    (source sink demandSource demandSink : Int) : Prop where
  item : ∀ i < t.items, indicator {node} (t.layout.item i) = item i
  bin : ∀ b < t.bins, indicator {node} (t.layout.bin b) = bin b
  source : indicator {node} t.layout.source = source
  sink : indicator {node} t.layout.sink = sink
  demandSource : indicator {node} t.layout.demandSource = demandSource
  demandSink : indicator {node} t.layout.demandSink = demandSink

theorem Blueprint.choice_lt (blueprint : Blueprint t choices net place last) {i : Nat}
    {choice : Nat × Nat} (member : choice ∈ choices.getD i []) : choice.2 < t.bins := by
  have allowed : choice.2 ∈ t.allowed.getD i [] := by
    rw [← blueprint.choices_getD]
    exact List.mem_map_of_mem member
  rw [List.getD_eq_getElem?_getD] at allowed
  cases same : t.allowed[i]? with
  | none => simp [same] at allowed
  | some bins =>
      rw [same] at allowed
      exact t.inRange bins (List.mem_of_getElem? same) _ allowed

/-- What leaves a single node is nothing, or the total at the ends. -/
theorem Blueprint.balance (blueprint : Blueprint t choices net place last)
    (raises : Network.Raises t.layout.demandSource t.layout.demandSink 0 net (total, residual))
    {node : Nat} {item bin : Nat → Int} {source sink demandSource demandSink : Int}
    (marks : Marks t node item bin source sink demandSource demandSink) :
    ∑ i ∈ Finset.range t.items, (demandSource - item i) * residual.flow (2 * i) +
        (source - demandSink) * residual.flow (2 * t.items) +
        ∑ i ∈ Finset.range t.items, ((choices.getD i []).map fun choice =>
          (item i - bin choice.2) * residual.flow choice.1).sum +
        ∑ b ∈ Finset.range t.bins,
          ((bin b - sink) * residual.flow (place b) +
            if 0 < (t.boundsOf b).1 then
              (demandSource - sink) * residual.flow (place b + 2) +
                (bin b - demandSink) * residual.flow (place b + 4)
            else 0) +
        (sink - source) * residual.flow last =
      (demandSource - demandSink) * total := by
  have balanced : net.outflow {node} - residual.outflow {node} =
      (demandSource - demandSink) * total := by
    rw [raises.outflow, ← marks.demandSource, ← marks.demandSink]
    simp only [indicator, sub_zero]
    split_ifs <;> ring
  rw [← balanced, blueprint.flow_eq raises.shape]
  simp only [marks.source, marks.sink, marks.demandSource, marks.demandSink]
  congr 1
  congr 1
  · congr 1
    · congr 1
      exact Finset.sum_congr rfl fun i member => by rw [marks.item i (Finset.mem_range.1 member)]
    · refine Finset.sum_congr rfl fun i member => congrArg List.sum (List.map_congr_left fun choice chosen => ?_)
      rw [marks.item i (Finset.mem_range.1 member), marks.bin _ (blueprint.choice_lt chosen)]
  · exact Finset.sum_congr rfl fun b member => by rw [marks.bin b (Finset.mem_range.1 member)]

private theorem marks_of_eq (node : Nat) {item bin : Nat → Int}
    {source sink demandSource demandSink : Int}
    (items : ∀ i < t.items, (if 1 + i = node then 1 else 0) = item i)
    (bins : ∀ b < t.bins, (if 1 + t.items + b = node then 1 else 0) = bin b)
    (ends : (if 0 = node then 1 else 0) = source ∧
      (if 1 + t.items + t.bins = node then 1 else 0) = sink ∧
      (if 1 + t.items + t.bins + 1 = node then 1 else 0) = demandSource ∧
      (if 1 + t.items + t.bins + 2 = node then 1 else 0) = demandSink) :
    Marks t node item bin source sink demandSource demandSink := by
  have single (other : Nat) : indicator {node} other = if other = node then 1 else 0 := by
    rw [indicator]
    simp only [Finset.mem_singleton]
  exact ⟨fun i inside => (single _).trans (items i inside), fun b inside => (single _).trans (bins b inside),
    (single _).trans ends.1, (single _).trans ends.2.1, (single _).trans ends.2.2.1,
    (single _).trans ends.2.2.2⟩

theorem marks_demandSource (t : Transportation) :
    Marks t t.layout.demandSource (fun _ => 0) (fun _ => 0) 0 0 1 0 := by
  have node : t.layout.demandSource = 1 + t.items + t.bins + 1 := rfl
  refine marks_of_eq _ (fun i inside => ?_) (fun b inside => ?_) ⟨?_, ?_, ?_, ?_⟩ <;>
    split_ifs <;> omega

theorem marks_demandSink (t : Transportation) :
    Marks t t.layout.demandSink (fun _ => 0) (fun _ => 0) 0 0 0 1 := by
  have node : t.layout.demandSink = 1 + t.items + t.bins + 2 := rfl
  refine marks_of_eq _ (fun i inside => ?_) (fun b inside => ?_) ⟨?_, ?_, ?_, ?_⟩ <;>
    split_ifs <;> omega

theorem marks_item {i : Nat} (inside : i < t.items) :
    Marks t (t.layout.item i) (fun j => if j = i then 1 else 0) (fun _ => 0) 0 0 0 0 := by
  have node : t.layout.item i = 1 + i := rfl
  refine marks_of_eq _ (fun j inside => ?_) (fun b inside => ?_) ⟨?_, ?_, ?_, ?_⟩ <;>
    split_ifs <;> omega

theorem marks_bin {b : Nat} (inside : b < t.bins) :
    Marks t (t.layout.bin b) (fun _ => 0) (fun c => if c = b then 1 else 0) 0 0 0 0 := by
  have node : t.layout.bin b = 1 + t.items + b := rfl
  refine marks_of_eq _ (fun i inside => ?_) (fun c inside => ?_) ⟨?_, ?_, ?_, ?_⟩ <;>
    split_ifs <;> omega

/-- If terms up to some bounds add up to the sum of the bounds, each of them is at its bound. -/
private theorem eq_of_sum_eq {index : Finset Nat} {term bound : Nat → Int}
    (le : ∀ k ∈ index, term k ≤ bound k) (sum : ∑ k ∈ index, bound k ≤ ∑ k ∈ index, term k) :
    ∀ k ∈ index, term k = bound k :=
  (Finset.sum_eq_sum_iff_of_le le).1 (le_antisymm (Finset.sum_le_sum le) sum)

section Met

variable (blueprint : Blueprint t choices net place last)
  (raises : Network.Raises t.layout.demandSource t.layout.demandSink 0 net (total, residual))
  (met : total = t.items + t.lowerSum)

include blueprint raises met

theorem Blueprint.flow_supply {i : Nat} (inside : i < t.items) : residual.flow (2 * i) = 1 := by
  have balanced := blueprint.balance raises (marks_demandSource t)
  simp only [sub_zero, one_mul, zero_mul, zero_add, add_zero, sub_self, Finset.sum_const_zero,
    List.map_const', List.sum_replicate, smul_zero] at balanced
  rw [met, lowerSum_eq] at balanced
  have items : ∀ i ∈ Finset.range t.items, residual.flow (2 * i) ≤ 1 := fun i member =>
    (blueprint.supply i (Finset.mem_range.1 member)).flow_le raises.shape raises.formed
  have demands : ∑ b ∈ Finset.range t.bins,
      (if 0 < (t.boundsOf b).1 then residual.flow (place b + 2) else 0) ≤
        ∑ b ∈ Finset.range t.bins, ((t.boundsOf b).1 : Int) := by
    refine Finset.sum_le_sum fun b member => ?_
    split_ifs with some
    · exact ((blueprint.passes b (Finset.mem_range.1 member)).demand some).flow_le raises.shape raises.formed
    · positivity
  refine eq_of_sum_eq items ?_ i (Finset.mem_range.2 inside)
  rw [Finset.sum_const, Finset.card_range, nsmul_eq_mul, mul_one]
  linarith

/-- The least count of every bin is owed. -/
theorem Blueprint.flow_owed {b : Nat} (inside : b < t.bins) (some : 0 < (t.boundsOf b).1) :
    residual.flow (place b + 4) = (t.boundsOf b).1 := by
  have balanced := blueprint.balance raises (marks_demandSink t)
  simp only [zero_sub, zero_mul, zero_add, add_zero, sub_self, Finset.sum_const_zero,
    List.map_const', List.sum_replicate, smul_zero, neg_one_mul] at balanced
  rw [met, lowerSum_eq] at balanced
  have items : residual.flow (2 * t.items) ≤ t.items :=
    blueprint.owed.flow_le raises.shape raises.formed
  have demands : ∀ b ∈ Finset.range t.bins,
      (if 0 < (t.boundsOf b).1 then residual.flow (place b + 4) else 0) ≤ ((t.boundsOf b).1 : Int) := by
    intro b member
    split_ifs with some
    · exact ((blueprint.passes b (Finset.mem_range.1 member)).owed some).flow_le raises.shape raises.formed
    · positivity
  have negated : ∑ b ∈ Finset.range t.bins,
      (if 0 < (t.boundsOf b).1 then -residual.flow (place b + 4) else 0) =
        -∑ b ∈ Finset.range t.bins,
          (if 0 < (t.boundsOf b).1 then residual.flow (place b + 4) else 0) := by
    rw [← Finset.sum_neg_distrib]
    refine Finset.sum_congr rfl fun b _ => ?_
    split_ifs <;> simp
  have full := eq_of_sum_eq demands (by linarith) b (Finset.mem_range.2 inside)
  rwa [if_pos some] at full

theorem Blueprint.flow_item {i : Nat} (inside : i < t.items) :
    ((choices.getD i []).map fun choice => residual.flow choice.1).sum = 1 := by
  have balanced := blueprint.balance raises (marks_item inside)
  simp only [sub_zero, zero_sub, zero_mul, add_zero, sub_self, ite_self, Finset.sum_const_zero]
    at balanced
  rw [Finset.sum_eq_single i (fun j _ other => by rw [if_neg other, neg_zero, zero_mul])
      fun outside => absurd (Finset.mem_range.2 inside) outside,
    Finset.sum_eq_single i (fun j _ other => by simp [if_neg other])
      fun outside => absurd (Finset.mem_range.2 inside) outside,
    blueprint.flow_supply raises met inside] at balanced
  simp only [if_true, one_mul, mul_one] at balanced
  linarith

theorem Blueprint.flow_bin {b : Nat} (inside : b < t.bins) :
    let arrived := ∑ i ∈ Finset.range t.items, ((choices.getD i []).map fun choice =>
      if choice.2 = b then residual.flow choice.1 else 0).sum
    (t.boundsOf b).1 ≤ arrived ∧ arrived ≤ (t.boundsOf b).2 := by
  intro arrived
  have balanced := blueprint.balance raises (marks_bin inside)
  simp only [sub_zero, zero_sub, zero_mul, zero_add, add_zero, sub_self, Finset.sum_const_zero]
    at balanced
  have incoming : ∑ i ∈ Finset.range t.items, ((choices.getD i []).map fun choice =>
      -(if choice.2 = b then (1 : Int) else 0) * residual.flow choice.1).sum = -arrived := by
    rw [← Finset.sum_neg_distrib]
    refine Finset.sum_congr rfl fun i _ => ?_
    rw [List.sum_neg, List.map_map]
    refine congrArg List.sum (List.map_congr_left fun choice _ => ?_)
    simp only [Function.comp_apply]
    split_ifs <;> simp
  have outgoing : ∑ c ∈ Finset.range t.bins,
      ((if c = b then (1 : Int) else 0) * residual.flow (place c) +
        if 0 < (t.boundsOf c).1 then (if c = b then (1 : Int) else 0) * residual.flow (place c + 4) else 0) =
      residual.flow (place b) + (t.boundsOf b).1 := by
    rw [Finset.sum_eq_single b (fun c _ other => by simp [if_neg other])
      fun outside => absurd (Finset.mem_range.2 inside) outside]
    simp only [if_true, one_mul]
    split_ifs with some
    · rw [blueprint.flow_owed raises met inside some]
    · have none : (t.boundsOf b).1 = 0 := by omega
      rw [none]
      simp
  rw [incoming, outgoing] at balanced
  have pass := (blueprint.passes b inside).pass
  have nonneg := Network.flow_nonneg raises.formed (place b)
  have atMost := pass.flow_le raises.shape raises.formed
  dsimp only at nonneg atMost
  constructor <;> linarith

omit blueprint raises met in
private theorem mapM_eq_some_map {α β : Type} {f : α → Option β} {g : α → β} {list : List α}
    (each : ∀ a ∈ list, f a = some (g a)) : list.mapM f = some (list.map g) := by
  induction list with
  | nil => rfl
  | cons first rest ih =>
      rw [List.mapM_cons, each first (by simp), ih fun a member => each a (by simp [member])]
      rfl

/-- The first saturated choice of an item is the only one through which anything flows. -/
theorem Blueprint.find_choice {i : Nat} (inside : i < t.items) :
    ∃ chosen ∈ choices.getD i [],
      (choices.getD i []).find? (fun choice => residual.capacity choice.1 == 0) = some chosen ∧
        ∀ b, ((choices.getD i []).map fun choice =>
          if choice.2 = b then residual.flow choice.1 else 0).sum = if chosen.2 = b then 1 else 0 := by
  have one := blueprint.flow_item raises met inside
  have bounds : ∀ choice ∈ choices.getD i [],
      residual.capacity choice.1 + residual.flow choice.1 = 1 ∧ 0 ≤ residual.capacity choice.1 ∧
        0 ≤ residual.flow choice.1 := by
    intro choice member
    exact ⟨(blueprint.choice i choice member).capacity_add_flow raises.shape,
      raises.formed.capacities _, Network.flow_nonneg raises.formed _⟩
  generalize choices.getD i [] = list at one bounds
  induction list with
  | nil => exact absurd one (by simp)
  | cons first rest ih =>
      obtain ⟨sum, capacity, flow⟩ := bounds first (by simp)
      rw [List.map_cons, List.sum_cons] at one
      by_cases saturated : residual.capacity first.1 = 0
      · -- Nothing is left for the later choices.
        have others : ((rest.map fun choice => residual.flow choice.1)).sum = 0 := by omega
        have idle : ∀ choice ∈ rest, residual.flow choice.1 = 0 := by
          intro choice member
          have nonneg : ∀ term ∈ rest.map fun choice => residual.flow choice.1, 0 ≤ term := by
            intro term listed
            obtain ⟨other, among, rfl⟩ := List.mem_map.1 listed
            exact (bounds other (by simp [among])).2.2
          have single := List.single_le_sum nonneg _ (List.mem_map_of_mem member)
          have := (bounds choice (by simp [member])).2.2
          omega
        refine ⟨first, by simp, by simp [saturated], fun b => ?_⟩
        have zero : (rest.map fun choice => if choice.2 = b then residual.flow choice.1 else 0).sum = 0 := by
          refine List.sum_eq_zero fun term listed => ?_
          obtain ⟨choice, member, rfl⟩ := List.mem_map.1 listed
          rw [idle choice member, ite_self]
        rw [List.map_cons, List.sum_cons, zero, add_zero, show residual.flow first.1 = 1 by omega]
      · have idle : residual.flow first.1 = 0 := by omega
        rw [idle, zero_add] at one
        obtain ⟨chosen, member, found, single⟩ :=
          ih one fun choice member => bounds choice (by simp [member])
        refine ⟨chosen, by simp [member], by simp [saturated, found], fun b => ?_⟩
        rw [List.map_cons, List.sum_cons, idle, ite_self, zero_add, single b]

theorem Blueprint.placement : ∃ bins,
    choices.mapM (fun edges =>
      (edges.find? fun (edge, _) => residual.capacity edge == 0).map Prod.snd) = some bins ∧
    Placement t bins := by
  let find (edges : List (Nat × Nat)) : Option Nat :=
    (edges.find? fun choice => residual.capacity choice.1 == 0).map Prod.snd
  let bins := choices.map fun edges => (find edges).getD 0
  have lengths : choices.length = t.items := by
    rw [items, ← blueprint.allowed, List.length_map]
  have atIndex {i : Nat} (inside : i < t.items) : bins.getD i 0 = (find (choices.getD i [])).getD 0 := by
    have within : i < choices.length := lengths ▸ inside
    simp [bins, List.getD_eq_getElem?_getD, within]
  have each (i : Nat) (inside : i < t.items) :
      bins.getD i 0 ∈ t.allowed.getD i [] ∧ find (choices.getD i []) = some (bins.getD i 0) ∧
        ∀ b, ((choices.getD i []).map fun choice =>
          if choice.2 = b then residual.flow choice.1 else 0).sum = if bins.getD i 0 = b then 1 else 0 := by
    obtain ⟨chosen, member, found, single⟩ := blueprint.find_choice raises met inside
    have same : find (choices.getD i []) = some chosen.2 := congrArg (Option.map Prod.snd) found
    have bin : bins.getD i 0 = chosen.2 := by rw [atIndex inside, same, Option.getD_some]
    rw [bin, ← blueprint.choices_getD]
    exact ⟨List.mem_map_of_mem member, same, single⟩
  refine ⟨bins, ?_, ?_, fun b inside => ?_⟩
  · have all : ∀ edges ∈ choices, find edges = some ((find edges).getD 0) := by
      intro edges member
      obtain ⟨i, within, rfl⟩ := List.getElem_of_mem member
      have found := (each i (lengths ▸ within)).2.1
      rw [List.getD_eq_getElem?_getD, List.getElem?_eq_getElem within, Option.getD_some] at found
      rw [found, Option.getD_some]
    change choices.mapM find = some bins
    exact mapM_eq_some_map all
  · refine List.forall₂_iff_get.2 ⟨by simp only [bins, List.length_map, lengths, items], ?_⟩
    intro i insideBins insideAllowed
    have allowed := (each i insideAllowed).1
    rwa [List.getD_eq_getElem bins 0 insideBins, List.getD_eq_getElem t.allowed [] insideAllowed]
      at allowed
  · have counted : (bins.count b : Int) = ∑ i ∈ Finset.range t.items, ((choices.getD i []).map fun choice =>
        if choice.2 = b then residual.flow choice.1 else 0).sum := by
      rw [count_eq_sum, show bins.length = t.items by simp [bins, lengths]]
      exact Finset.sum_congr rfl fun i member => ((each i (Finset.mem_range.1 member)).2.2 b).symm
    obtain ⟨low, high⟩ := blueprint.flow_bin raises met inside
    rw [← counted] at low high
    exact ⟨by exact_mod_cast low, by exact_mod_cast high⟩

end Met

theorem Blueprint.outflow_demandSource_le (blueprint : Blueprint t choices net place last) :
    net.outflow {t.layout.demandSource} ≤ t.items + t.lowerSum := by
  have marks := marks_demandSource t
  have apart {node : Nat} (zero : indicator {t.layout.demandSource} node = 0) :
      node ∉ ({t.layout.demandSource} : Finset Nat) := by
    intro member
    rw [indicator, if_pos member] at zero
    exact absurd zero (by decide)
  have supplied : ∑ i ∈ Finset.range t.items,
      (if t.layout.demandSource ∈ ({t.layout.demandSource} : Finset Nat) ∧
        t.layout.item i ∉ ({t.layout.demandSource} : Finset Nat) then (1 : Int) else 0) ≤ t.items := by
    refine (Finset.sum_le_sum fun i _ => show _ ≤ (1 : Int) by split_ifs <;> decide).trans ?_
    simp
  have chosen : ∑ i ∈ Finset.range t.items, ((choices.getD i []).map fun choice =>
      if t.layout.item i ∈ ({t.layout.demandSource} : Finset Nat) ∧
        t.layout.bin choice.2 ∉ ({t.layout.demandSource} : Finset Nat) then (1 : Int) else 0).sum = 0 := by
    refine Finset.sum_eq_zero fun i member => List.sum_eq_zero fun term listed => ?_
    obtain ⟨choice, -, rfl⟩ := List.mem_map.1 listed
    exact if_neg fun both => apart (marks.item i (Finset.mem_range.1 member)) both.1
  rw [blueprint.outflow_eq, lowerSum_eq]
  dsimp only
  rw [chosen, if_neg fun both => apart marks.source both.1, if_neg fun both => apart marks.sink both.1]
  have passed : ∀ b ∈ Finset.range t.bins,
      ((if t.layout.bin b ∈ ({t.layout.demandSource} : Finset Nat) ∧
        t.layout.sink ∉ ({t.layout.demandSource} : Finset Nat)
        then ((t.boundsOf b).2 - (t.boundsOf b).1 : Int) else 0) +
      ((if t.layout.demandSource ∈ ({t.layout.demandSource} : Finset Nat) ∧
        t.layout.sink ∉ ({t.layout.demandSource} : Finset Nat) then ((t.boundsOf b).1 : Int) else 0) +
        (if t.layout.bin b ∈ ({t.layout.demandSource} : Finset Nat) ∧
          t.layout.demandSink ∉ ({t.layout.demandSource} : Finset Nat)
          then ((t.boundsOf b).1 : Int) else 0))) ≤ ((t.boundsOf b).1 : Int) := by
    intro b member
    have outside := apart (marks.bin b (Finset.mem_range.1 member))
    simp only [outside, false_and, if_false, zero_add, add_zero]
    split_ifs <;> simp
  have := Finset.sum_le_sum passed
  linarith

end Flow

/-! ## Searching for a placement -/

theorem exists_maxFlow {t : Transportation} (valid : t.Valid) :
    ∃ total residual,
      t.network.2.maxFlow t.layout.demandSource t.layout.demandSink = (total, residual) ∧
        Network.Raises t.layout.demandSource t.layout.demandSink 0 t.network.2 (total, residual) ∧
        ∃ set, t.layout.demandSource ∈ set ∧ t.layout.demandSink ∉ set ∧ residual.outflow set = 0 := by
  obtain ⟨place, last, blueprint⟩ := blueprint_network valid
  have inside : t.layout.demandSource < t.network.2.nodes := by
    rw [blueprint.nodes]
    simp only [Layout.demandSource, Layout.nodes]
    omega
  have distinct : t.layout.demandSource ≠ t.layout.demandSink := by
    simp only [Layout.demandSource, Layout.demandSink]
    omega
  obtain ⟨raises, cut⟩ := Network.raises_maxFlow blueprint.built.formed inside distinct
  rcases same : t.network.2.maxFlow t.layout.demandSource t.layout.demandSink with ⟨total, residual⟩
  rw [same] at raises cut
  exact ⟨total, residual, rfl, raises, cut⟩

/-- The search for a placement fails exactly if the maximum flow does not meet all demands. -/
theorem place?_eq {t : Transportation} {total : Int} {residual : Network}
    (same : t.network.2.maxFlow t.layout.demandSource t.layout.demandSink = (total, residual)) :
    t.place? t.lowerSum =
      if total = t.items + t.lowerSum then
        t.network.1.mapM fun edges =>
          (edges.find? fun (edge, _) => residual.capacity edge == 0).map Prod.snd
      else none := by
  rcases network : t.network with ⟨choices, net⟩
  rw [network] at same
  dsimp only [layout] at same
  simp only [place?, network, same]

theorem place?_sound {t : Transportation} (valid : t.Valid) {bins : List Nat}
    (placed : t.place? t.lowerSum = some bins) : Placement t bins := by
  obtain ⟨place, last, blueprint⟩ := blueprint_network valid
  obtain ⟨total, residual, flow, raises, -⟩ := exists_maxFlow valid
  rw [place?_eq flow] at placed
  split_ifs at placed with met
  obtain ⟨found, same, placement⟩ := blueprint.placement raises met
  rw [same] at placed
  exact Option.some.inj placed ▸ placement

theorem place?_complete {t : Transportation} (valid : t.Valid) {bins : List Nat}
    (placement : Placement t bins) : ∃ found, t.place? t.lowerSum = some found := by
  obtain ⟨place, last, blueprint⟩ := blueprint_network valid
  obtain ⟨total, residual, flow, raises, set, demandSource, demandSink, cut⟩ := exists_maxFlow valid
  have atLeast := blueprint.le_outflow placement demandSource demandSink
  have lost := raises.outflow set
  dsimp only at lost
  rw [if_pos demandSource, if_neg demandSink, cut] at lost
  have distinct : t.layout.demandSink ∉ ({t.layout.demandSource} : Finset Nat) := by
    simp [Layout.demandSource, Layout.demandSink]
  have spent := raises.outflow {t.layout.demandSource}
  dsimp only at spent
  rw [if_pos (Finset.mem_singleton_self _), if_neg distinct] at spent
  have nonneg := Network.outflow_nonneg raises.formed {t.layout.demandSource}
  have atMost := blueprint.outflow_demandSource_le
  have met : total = t.items + t.lowerSum := by
    dsimp only at nonneg
    omega
  obtain ⟨found, same, -⟩ := blueprint.placement raises met
  rw [place?_eq flow, if_pos met]
  exact ⟨found, same⟩

end StatBounds.Transportation
