import StatBounds.Proofs.Transport.Arcs
import StatBounds.Proofs.Transport.Runs

/-! # Maximum flow and minimum cut

Between two searches of a run the residual network holds a flow whose value is what has been sent: through each arc
flows what its reverse has gained. No flow carries more across a set of nodes than the arcs that leave the set, and
the run ends with such a set without capacity left. So the flow that is found is a maximum, also among flows that are
not integral, and the set is a minimum cut.
-/

namespace StatBounds

/-- An arc of a network that is to be built. -/
structure Arc where
  source : Nat
  target : Nat
  capacity : Int
  deriving Repr, DecidableEq

variable {arcs : List Arc} {source sink count : Nat}

/-! ## Flows and cuts -/

section Flows

variable {R : Type} [CommRing R]

/-- What flows out of a node, without what flows into it. -/
def surplus (arcs : List Arc) (flow : Fin arcs.length → R) (node : Nat) : R :=
  ∑ k, ((if arcs[k].source = node then flow k else 0) - (if arcs[k].target = node then flow k else 0))

theorem sum_surplus (flow : Fin arcs.length → R) (set : Finset Nat) :
    ∑ node ∈ set, surplus arcs flow node =
      ∑ k, ((if arcs[k].source ∈ set then flow k else 0) - (if arcs[k].target ∈ set then flow k else 0)) := by
  simp only [surplus]
  rw [Finset.sum_comm]
  refine Finset.sum_congr rfl fun k _ => ?_
  rw [Finset.sum_sub_distrib, Finset.sum_ite_eq, Finset.sum_ite_eq]

variable [LinearOrder R]

/-- A flow from a source to a sink: no arc carries more than its capacity, and all other nodes pass on what they
    receive. -/
structure IsFlow (arcs : List Arc) (source sink : Nat) (flow : Fin arcs.length → R) : Prop where
  nonneg : ∀ k, 0 ≤ flow k
  le : ∀ k, flow k ≤ arcs[k].capacity
  conserved : ∀ node, node ≠ source → node ≠ sink → surplus arcs flow node = 0

/-- What the arcs that leave a set of nodes can carry together. -/
def cutCapacity (arcs : List Arc) (set : Finset Nat) : Int :=
  ∑ k : Fin arcs.length, if arcs[k].source ∈ set ∧ arcs[k].target ∉ set then arcs[k].capacity else 0

/-- What leaves the source crosses every set that separates it from the sink. -/
theorem IsFlow.surplus_le_cutCapacity [IsStrictOrderedRing R] {flow : Fin arcs.length → R}
    (isFlow : IsFlow arcs source sink flow) {set : Finset Nat} (holds : source ∈ set) (separates : sink ∉ set) :
    surplus arcs flow source ≤ cutCapacity arcs set := by
  have only : ∑ node ∈ set, surplus arcs flow node = surplus arcs flow source := by
    refine Finset.sum_eq_single_of_mem source holds fun node member other => isFlow.conserved node other ?_
    rintro rfl
    exact separates member
  rw [← only, sum_surplus, cutCapacity, Int.cast_sum]
  refine Finset.sum_le_sum fun k _ => ?_
  have := isFlow.nonneg k
  have := isFlow.le k
  push_cast
  split_ifs <;> simp_all

end Flows

namespace Network

open Search (fresh attempt augment unlimited)

/-! ## Networks of a list of arcs -/

/-- The network of some nodes with the given arcs, added one after another. -/
def ofArcs (count : Nat) (arcs : List Arc) : Network :=
  arcs.foldl (fun net arc => net.addEdge arc.source arc.target arc.capacity) (ofNodes count)

/-- The arcs lead from node to node and have capacities that are not negative. -/
def Fits (count : Nat) (arcs : List Arc) : Prop :=
  ∀ arc ∈ arcs, arc.source < count ∧ arc.target < count ∧ 0 ≤ arc.capacity

/-- A network that holds exactly the given arcs, in their order. -/
structure Holds (count : Nat) (arcs : List Arc) (net : Network) : Prop where
  built : net.Built
  nodes : net.nodes = count
  size : net.edges.size = 2 * arcs.length
  arc : ∀ k : Fin arcs.length, net.HasArc (2 * k) arcs[k].source arcs[k].target arcs[k].capacity

theorem Holds.addEdge {net : Network} (holds : Holds count arcs net) {arc : Arc} (insideS : arc.source < count)
    (insideT : arc.target < count) (nonneg : 0 ≤ arc.capacity) :
    Holds count (arcs ++ [arc]) (net.addEdge arc.source arc.target arc.capacity) := by
  have nodes := holds.nodes
  refine ⟨built_addEdge holds.built (nodes ▸ insideS) (nodes ▸ insideT) nonneg, ?_, ?_, fun k => ?_⟩
  · rw [nodes_addEdge, nodes]
  · rw [size_addEdge, holds.size, List.length_append, List.length_singleton]
    ring
  · rcases lt_or_ge k.val arcs.length with old | new
    · have same : (arcs ++ [arc])[k] = arcs[k.val] := List.getElem_append_left old
      rw [same]
      exact (holds.arc ⟨k, old⟩).grown holds.built grown_addEdge
    · have last : k.val = arcs.length := by
        have bound := k.isLt
        simp only [List.length_append, List.length_singleton] at bound
        omega
      have same : (arcs ++ [arc])[k] = arc := by
        simp [last]
      rw [same, last, ← holds.size]
      exact hasArc_addEdge holds.built

theorem holds_ofArcs (fits : Fits count arcs) : Holds count arcs (ofArcs count arcs) := by
  induction arcs using List.reverseRecOn with
  | nil =>
      exact ⟨built_ofNodes count, nodes_ofNodes count, by simp [ofArcs, ofNodes], fun k => k.elim0⟩
  | append_singleton arcs arc ih =>
      obtain ⟨insideS, insideT, nonneg⟩ := fits arc (by simp)
      rw [ofArcs, List.foldl_append]
      exact (ih fun other member => fits other (by simp [member])).addEdge insideS insideT nonneg

variable {net residual : Network}

theorem Holds.sumArcs (holds : Holds count arcs net) (term : Nat → Int) :
    net.sumArcs term = ∑ k : Fin arcs.length, term (2 * k) := by
  rw [Network.sumArcs, holds.size, Nat.mul_div_cancel_left _ (by decide), Finset.sum_range]

/-- In the network that was built the capacity of a set is that of the arcs that leave it. -/
theorem Holds.outflow_eq (holds : Holds count arcs net) (set : Finset Nat) :
    net.outflow set = cutCapacity arcs set := by
  rw [outflow_eq_sumArcs holds.built.even, holds.sumArcs, cutCapacity]
  exact Finset.sum_congr rfl fun k _ => (holds.arc k).share_eq set

/-! ## The flow of a residual network -/

/-- What flows through each arc. -/
def flows (residual : Network) (arcs : List Arc) (k : Fin arcs.length) : Int :=
  residual.flow (2 * k)

theorem surplus_flows (holds : Holds count arcs net) (shape : SameShape net residual) (node : Nat) :
    surplus arcs (residual.flows arcs) node = net.outflow {node} - residual.outflow {node} := by
  rw [← sumArcs_flow holds.built shape {node}, holds.sumArcs, surplus]
  refine Finset.sum_congr rfl fun k _ => ?_
  rw [(holds.arc k).tail, (holds.arc k).head, flows]
  simp only [indicator, Finset.mem_singleton, sub_mul, ite_mul, one_mul, zero_mul]

theorem Raises.isFlow {total : Int} (raises : Raises source sink 0 net (total, residual)) (holds : Holds count arcs net)
    (distinct : source ≠ sink) :
    IsFlow arcs source sink (residual.flows arcs) ∧ surplus arcs (residual.flows arcs) source = total := by
  have left (node : Nat) : surplus arcs (residual.flows arcs) node =
      (if node = source then total else 0) - (if node = sink then total else 0) := by
    rw [surplus_flows holds raises.shape, raises.outflow {node}]
    simp only [Finset.mem_singleton, sub_zero, eq_comm]
    ring
  refine ⟨⟨fun k => flow_nonneg raises.formed _, fun k => ?_, fun node notSource notSink => ?_⟩, ?_⟩
  · exact_mod_cast (holds.arc k).flow_le raises.shape raises.formed
  · rw [left, if_neg notSource, if_neg notSink, sub_zero]
  · rw [left, if_pos rfl, if_neg distinct, sub_zero]

/-! ## Sizes -/

theorem capacity_nonneg (fits : Fits count arcs) : ∀ c ∈ arcs.map Arc.capacity, 0 ≤ c := by
  intro c listed
  obtain ⟨arc, member, rfl⟩ := List.mem_map.1 listed
  exact (fits arc member).2.2

theorem cutCapacity_le_sum (fits : Fits count arcs) (set : Finset Nat) :
    cutCapacity arcs set ≤ (arcs.map Arc.capacity).sum := by
  rw [← Fin.sum_univ_fun_getElem, cutCapacity]
  refine Finset.sum_le_sum fun k _ => ?_
  split_ifs
  · exact le_rfl
  · exact (fits _ (List.getElem_mem k.isLt)).2.2

/-- An edge never carries more than the arc that it or its reverse was made for. -/
theorem capacity_le_sum (fits : Fits count arcs) (holds : Holds count arcs net) (shape : SameShape net residual)
    (formed : residual.WellFormed) (edge : Nat) : residual.capacity edge ≤ (arcs.map Arc.capacity).sum := by
  rcases lt_or_ge edge residual.edges.size with inside | outside
  · have size : residual.edges.size = 2 * arcs.length := shape.size.symm.trans holds.size
    let k : Fin arcs.length := ⟨edge / 2, by omega⟩
    have listed : arcs[k].capacity ≤ (arcs.map Arc.capacity).sum :=
      List.single_le_sum (capacity_nonneg fits) _ (List.mem_map_of_mem (List.getElem_mem k.isLt))
    have whole := (holds.arc k).capacity_add_flow shape
    have nonneg := formed.capacities (2 * k)
    have back : 0 ≤ residual.flow (2 * k) := flow_nonneg formed _
    have reverse : (2 * k.val) ^^^ 1 = 2 * k + 1 := Nat.xor_one_of_even (even_two_mul _)
    have position : edge = 2 * k ∨ edge = 2 * k + 1 := by
      change edge = 2 * (edge / 2) ∨ edge = 2 * (edge / 2) + 1
      omega
    rcases position with same | same
    · rw [same]
      omega
    · have same : residual.capacity edge = residual.flow (2 * k) := by
        rw [flow, reverse, same]
      omega
  · rw [capacity_of_size_le _ outside]
    exact List.sum_nonneg (capacity_nonneg fits)

/-! ## The flow that is found -/

/-- What holds of a run between two searches: nothing is negative or leaves the range of 64-bit words, each edge shares
    the capacity of its arc with its reverse, the arcs carry a flow of the value that has been sent, and no path is
    cut short. -/
structure Sound (net : Network) (arcs : List Arc) (source sink : Nat) (total : Int) (levels : Levels)
    (search : Search) : Prop where
  capacities : ∀ edge, 0 ≤ search.net.capacity edge ∧ search.net.capacity edge < 2 ^ 63
  pairs : ∀ edge, edge < net.edges.size → search.net.capacity edge + search.net.capacity (edge ^^^ 1) =
    net.capacity edge + net.capacity (edge ^^^ 1)
  isFlow : IsFlow arcs source sink (search.net.flows arcs)
  value : surplus arcs (search.net.flows arcs) source = total
  range : 0 ≤ total ∧ total < 2 ^ 63
  complete : ∀ steps, search.net.nodes ≤ steps →
    augment levels sink steps 0 source unlimited search = attempt levels source sink search

theorem Underway.sound (fits : Fits count arcs) (holds : Holds count arcs net)
    (small : (arcs.map Arc.capacity).sum < 2 ^ 63) (distinct : source ≠ sink) {total : Int} {levels : Levels}
    {search : Search} (underway : Underway net source sink total levels search) :
    Sound net arcs source sink total levels search := by
  have formed := underway.ready.formed
  have shape := underway.raises.shape
  obtain ⟨isFlow, value⟩ := underway.raises.isFlow holds distinct
  have left := underway.outflow_source distinct
  have rest := outflow_nonneg formed {source}
  have supply := cutCapacity_le_sum fits {source}
  rw [← holds.outflow_eq] at supply
  refine ⟨fun edge => ⟨formed.capacities edge, ?_⟩, fun edge inside => (shape.pairs edge inside).symm, isFlow, value,
    ⟨underway.raises.le, by omega⟩, fun steps enough => ?_⟩
  · exact (capacity_le_sum fits holds shape formed edge).trans_lt small
  · exact Search.augment_eq_of_enough underway.shallow steps _ 0 source unlimited search underway.start (by omega)
      (by omega)

/-- The search for a maximum flow ends, and what it gives is the value of a maximum flow and the capacity of a cut that
    separates the source from the sink. -/
theorem maxFlow_maximal (fits : Fits count arcs) (small : (arcs.map Arc.capacity).sum < 2 ^ 63)
    (inside : source < count) (distinct : source ≠ sink) :
    let net := ofArcs count arcs
    let result := net.maxFlow source sink
    (Visits net source sink result.1 (result.2.levels source) (fresh result.2) ∧
        label (result.2.levels source) sink = none) ∧
      (IsFlow arcs source sink (result.2.flows arcs) ∧ surplus arcs (result.2.flows arcs) source = result.1) ∧
      (∀ flow : Fin arcs.length → ℝ, IsFlow arcs source sink flow → surplus arcs flow source ≤ result.1) ∧
      (∃ cut, source ∈ cut ∧ sink ∉ cut ∧ cutCapacity arcs cut = result.1) ∧
      ∀ total levels search, Visits net source sink total levels search →
        Sound net arcs source sink total levels search := by
  intro net result
  have holds : Holds count arcs net := holds_ofArcs fits
  have formed := holds.built.formed
  have insideNet : source < net.nodes := holds.nodes.symm ▸ inside
  have ended := visits_maxFlow formed insideNet distinct
  obtain ⟨raises, cut, member, apart, drained⟩ := raises_maxFlow formed insideNet distinct
  have full : cutCapacity arcs cut = result.1 := by
    have left := raises.outflow cut
    simp only [member, apart, if_true, if_false, drained, sub_zero, add_zero] at left
    exact (holds.outflow_eq cut).symm.trans (sub_eq_zero.1 left.symm)
  refine ⟨ended, raises.isFlow holds distinct, fun flow isFlow => ?_, ⟨cut, member, apart, full⟩,
    fun total levels search visits => (visits.underway formed insideNet).sound fits holds small distinct⟩
  rw [← full]
  exact isFlow.surplus_le_cutCapacity member apart

/-- Five units flow through four nodes. Some of them have to cross from one of the inner nodes to the other. -/
theorem maxFlow_maximal_four_nodes :
    let arcs : List Arc := [⟨0, 1, 3⟩, ⟨0, 2, 2⟩, ⟨1, 2, 1⟩, ⟨1, 3, 2⟩, ⟨2, 3, 3⟩]
    Fits 4 arcs ∧ (arcs.map Arc.capacity).sum < 2 ^ 63 ∧ ((ofArcs 4 arcs).maxFlow 0 3).1 = 5 ∧
      (∀ flow : Fin arcs.length → ℝ, IsFlow arcs 0 3 flow → surplus arcs flow 0 ≤ 5) ∧
      ∃ cut, 0 ∈ cut ∧ 3 ∉ cut ∧ cutCapacity arcs cut = 5 := by
  intro arcs
  have fits : Fits 4 arcs := by
    unfold Fits
    decide
  have small : (arcs.map Arc.capacity).sum < 2 ^ 63 := by decide
  have value : ((ofArcs 4 arcs).maxFlow 0 3).1 = 5 := by decide +kernel
  obtain ⟨-, -, bounded, cut, -⟩ := maxFlow_maximal fits small (by decide : 0 < 4) (by decide : 0 ≠ 3)
  rw [value] at bounded cut
  exact ⟨fits, small, value, by simpa using bounded, cut⟩

end Network

end StatBounds
