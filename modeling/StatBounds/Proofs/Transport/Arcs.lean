import StatBounds.Proofs.Transport.MaxFlow

/-! # Networks built from arcs

A network is built by adding one arc after another, each of which is an even edge whose reverse is the
odd edge next to it. So sums over all edges are sums over the arcs in the order in which they were
added, also in the residual networks of the one that was built.
-/

namespace StatBounds.Network

/-- A network in which every even edge is followed by its reverse, which has no capacity yet. -/
structure Built (net : Network) : Prop where
  formed : net.WellFormed
  even : Even net.edges.size
  idle : ∀ edge, Even edge → net.capacity (edge ^^^ 1) = 0

/-- An even edge is an arc from one node to another with a capacity, through which nothing flows yet. -/
structure HasArc (net : Network) (edge source target : Nat) (capacity : Int) : Prop where
  inside : edge < net.edges.size
  even : Even edge
  tail : net.tail edge = source
  head : net.head edge = target
  capacity : net.capacity edge = capacity
  reverse : net.capacity (edge ^^^ 1) = 0

def sumArcs (net : Network) (term : Nat → Int) : Int :=
  ∑ k ∈ Finset.range (net.edges.size / 2), term (2 * k)

/-! ## Adding an arc -/

theorem nodes_addEdge (net : Network) (source target : Nat) (capacity : Int) :
    (net.addEdge source target capacity).nodes = net.nodes := by
  simp [nodes, addEdge]

theorem size_addEdge (net : Network) (source target : Nat) (capacity : Int) :
    (net.addEdge source target capacity).edges.size = net.edges.size + 2 := by
  simp [addEdge]

theorem getElem?_addEdge (net : Network) (source target : Nat) (capacity : Int) (edge : Nat) :
    (net.addEdge source target capacity).edges[edge]? =
      if edge = net.edges.size then some { target, capacity }
      else if edge = net.edges.size + 1 then some { target := source, capacity := 0 }
      else net.edges[edge]? := by
  simp only [addEdge, Array.getElem?_push, Array.size_push]
  split_ifs <;> first | rfl | omega

theorem sumArcs_addEdge {net : Network} (built : net.Built) (source target : Nat) (capacity : Int)
    (term : Nat → Int) :
    (net.addEdge source target capacity).sumArcs term = net.sumArcs term + term net.edges.size := by
  obtain ⟨half, size⟩ := built.even
  have halves : (net.addEdge source target capacity).edges.size / 2 = net.edges.size / 2 + 1 := by
    rw [size_addEdge]
    omega
  rw [sumArcs, sumArcs, halves, Finset.sum_range_succ]
  congr 2
  omega

section AddEdge

variable {net : Network} {source target : Nat} {capacity : Int}

theorem hasArc_addEdge (built : net.Built) :
    (net.addEdge source target capacity).HasArc net.edges.size source target capacity := by
  have reverse : net.edges.size ^^^ 1 = net.edges.size + 1 := Nat.xor_one_of_even built.even
  refine ⟨by rw [size_addEdge]; omega, built.even, ?_, ?_, ?_, ?_⟩
  · rw [Network.tail, Network.head, getElem?_addEdge, reverse]
    simp
  · rw [Network.head, getElem?_addEdge]
    simp
  · rw [capacity_eq, getElem?_addEdge]
    simp
  · rw [capacity_eq, getElem?_addEdge, reverse]
    simp

/-- Adding arcs does not change the edges that are there. -/
structure Grown (net other : Network) : Prop where
  nodes : net.nodes = other.nodes
  size : net.edges.size ≤ other.edges.size
  edges : ∀ edge, edge < net.edges.size → other.edges[edge]? = net.edges[edge]?

theorem Grown.refl (net : Network) : Grown net net := ⟨rfl, le_rfl, fun _ _ => rfl⟩

theorem Grown.trans {first second third : Network} (left : Grown first second)
    (right : Grown second third) : Grown first third where
  nodes := left.nodes.trans right.nodes
  size := left.size.trans right.size
  edges := fun edge inside =>
    (right.edges edge (lt_of_lt_of_le inside left.size)).trans (left.edges edge inside)

theorem grown_addEdge : Grown net (net.addEdge source target capacity) where
  nodes := (nodes_addEdge net source target capacity).symm
  size := by
    rw [size_addEdge]
    omega
  edges := by
    intro edge inside
    rw [getElem?_addEdge, if_neg (by omega), if_neg (by omega)]

theorem HasArc.grown {other : Network} {edge : Nat} (built : net.Built)
    (arc : net.HasArc edge source target capacity) (grown : Grown net other) :
    other.HasArc edge source target capacity := by
  have reversed := built.formed.paired edge arc.inside
  refine ⟨lt_of_lt_of_le arc.inside grown.size, arc.even, ?_, ?_, ?_, ?_⟩
  · rw [Network.tail, Network.head, grown.edges _ reversed]
    exact arc.tail
  · rw [Network.head, grown.edges _ arc.inside]
    exact arc.head
  · rw [capacity_eq, grown.edges _ arc.inside, ← capacity_eq]
    exact arc.capacity
  · rw [capacity_eq, grown.edges _ reversed, ← capacity_eq]
    exact arc.reverse

theorem leaving_addEdge (node edge : Nat) (insideS : source < net.nodes) (insideT : target < net.nodes) :
    edge ∈ (net.addEdge source target capacity).leaving.getD node [] ↔
      edge ∈ net.leaving.getD node [] ∨ (node = source ∧ edge = net.edges.size) ∨
        (node = target ∧ edge = net.edges.size + 1) := by
  have placeS : net.leaving[source]? = some net.leaving[source] := Array.getElem?_eq_getElem insideS
  have placeT : net.leaving[target]? = some net.leaving[target] := Array.getElem?_eq_getElem insideT
  simp only [addEdge, Array.getD_eq_getD_getElem?, Array.getElem?_modify]
  by_cases atS : source = node
  · subst atS
    by_cases atT : target = source
    · subst atT
      simp [placeT]
    · simp [placeS, atT, Ne.symm atT]
  · by_cases atT : target = node
    · subst atT
      simp [placeT, atS, Ne.symm atS]
    · simp [atS, atT, Ne.symm atS, Ne.symm atT]

theorem built_addEdge (built : net.Built) (insideS : source < net.nodes) (insideT : target < net.nodes)
    (nonneg : 0 ≤ capacity) : (net.addEdge source target capacity).Built := by
  have arc : (net.addEdge source target capacity).HasArc net.edges.size source target capacity :=
    hasArc_addEdge built
  have forward : net.edges.size ^^^ 1 = net.edges.size + 1 := Nat.xor_one_of_even built.even
  have backward : (net.edges.size + 1) ^^^ 1 = net.edges.size := reverse_eq_comm.1 forward.symm
  have grown : Grown net (net.addEdge source target capacity) := grown_addEdge
  have size := size_addEdge net source target capacity
  have position (edge : Nat) (inside : edge < (net.addEdge source target capacity).edges.size) :
      edge < net.edges.size ∨ edge = net.edges.size ∨ edge = net.edges.size + 1 := by omega
  have oldHead (edge : Nat) (inside : edge < net.edges.size) :
      (net.addEdge source target capacity).head edge = net.head edge := by
    rw [Network.head, grown.edges edge inside, Network.head]
  have oldTail (edge : Nat) (inside : edge < net.edges.size) :
      (net.addEdge source target capacity).tail edge = net.tail edge :=
    oldHead _ (built.formed.paired edge inside)
  have lastHead : (net.addEdge source target capacity).head (net.edges.size + 1) = source := by
    rw [← forward]
    exact arc.tail
  have lastTail : (net.addEdge source target capacity).tail (net.edges.size + 1) = target := by
    rw [← forward, tail_reverse]
    exact arc.head
  refine ⟨⟨fun edge inside => ?_, fun edge inside => ?_, fun node edge => ?_, fun edge => ?_⟩, ?_,
    fun edge even => ?_⟩
  · rcases position edge inside with old | rfl | rfl
    · have := built.formed.paired edge old
      omega
    · omega
    · omega
  · rw [nodes_addEdge]
    rcases position edge inside with old | rfl | rfl
    · rw [oldHead edge old]
      exact built.formed.heads edge old
    · rw [arc.head]
      exact insideT
    · rw [lastHead]
      exact insideS
  · rw [leaving_addEdge node edge insideS insideT, built.formed.leaving, size]
    constructor
    · rintro (⟨old, leaves⟩ | ⟨rfl, rfl⟩ | ⟨rfl, rfl⟩)
      · exact ⟨by omega, (oldTail edge old).trans leaves⟩
      · exact ⟨by omega, arc.tail⟩
      · exact ⟨by omega, lastTail⟩
    · rintro ⟨inside, leaves⟩
      rcases position edge (size ▸ inside) with old | rfl | rfl
      · exact .inl ⟨old, (oldTail edge old).symm.trans leaves⟩
      · exact .inr (.inl ⟨leaves.symm.trans arc.tail, rfl⟩)
      · exact .inr (.inr ⟨leaves.symm.trans lastTail, rfl⟩)
  · rcases lt_or_ge edge (net.addEdge source target capacity).edges.size with inside | outside
    · rcases position edge inside with old | rfl | rfl
      · rw [capacity_eq, grown.edges edge old, ← capacity_eq]
        exact built.formed.capacities edge
      · rw [arc.capacity]
        exact nonneg
      · rw [← forward, arc.reverse]
    · rw [capacity_of_size_le _ outside]
  · rw [size]
    exact built.even.add (by decide)
  · rcases lt_or_ge (edge ^^^ 1) (net.addEdge source target capacity).edges.size with inside | outside
    · rcases position _ inside with old | new | new
      · rw [capacity_eq, grown.edges _ old, ← capacity_eq]
        exact built.idle edge even
      · -- The reverse of an even edge is odd, and the first of the new edges is even.
        have odd : Odd (edge ^^^ 1) := by
          rw [Nat.xor_one_of_even even]
          exact even.add_one
        rw [new] at odd
        exact absurd built.even (Nat.not_even_iff_odd.2 odd)
      · rw [new, ← forward]
        exact arc.reverse
    · exact capacity_of_size_le _ outside

end AddEdge

theorem built_ofNodes (count : Nat) : (ofNodes count).Built where
  formed :=
    { paired := fun edge inside => absurd inside (by simp [ofNodes])
      heads := fun edge inside => absurd inside (by simp [ofNodes])
      leaving := by
        intro node edge
        simp only [ofNodes, Array.getD_eq_getD_getElem?, Array.getElem?_replicate]
        split_ifs <;> simp
      capacities := by
        intro edge
        rw [capacity_of_size_le _ (by simp [ofNodes])] }
  even := by simp [ofNodes]
  idle := fun edge _ => capacity_of_size_le _ (by simp [ofNodes])

theorem nodes_ofNodes (count : Nat) : (ofNodes count).nodes = count := by
  simp [ofNodes, nodes]

/-! ## The capacity of a set of nodes, arc by arc -/

/-- What flows through an arc: the capacity that its reverse has gained. -/
def flow (net : Network) (edge : Nat) : Int :=
  net.capacity (edge ^^^ 1)

def share (net : Network) (set : Finset Nat) (edge : Nat) : Int :=
  (if net.tail edge ∈ set ∧ net.head edge ∉ set then net.capacity edge else 0) +
    (if net.head edge ∈ set ∧ net.tail edge ∉ set then net.flow edge else 0)

/-- One for the nodes of a set and zero for all others. -/
def indicator (set : Finset Nat) (node : Nat) : Int :=
  if node ∈ set then 1 else 0

private theorem sum_range_two_mul (term : Nat → Int) (half : Nat) :
    ∑ edge ∈ Finset.range (2 * half), term edge =
      ∑ k ∈ Finset.range half, (term (2 * k) + term (2 * k + 1)) := by
  induction half with
  | zero => rfl
  | succ half ih =>
      rw [show 2 * (half + 1) = 2 * half + 1 + 1 by ring, Finset.sum_range_succ, Finset.sum_range_succ,
        ih, Finset.sum_range_succ]
      ring

theorem outflow_eq_sumArcs {net : Network} (even : Even net.edges.size) (set : Finset Nat) :
    net.outflow set = net.sumArcs (net.share set) := by
  obtain ⟨half, size⟩ := even
  have halves : net.edges.size / 2 = half := by omega
  rw [outflow, sumArcs, halves, size, ← two_mul, sum_range_two_mul]
  refine Finset.sum_congr rfl fun k _ => ?_
  have reverse : 2 * k + 1 = (2 * k) ^^^ 1 := (Nat.xor_one_of_even (even_two_mul k)).symm
  rw [share, reverse, tail_reverse]
  rfl

section Residual

variable {net residual : Network} {edge source target : Nat} {capacity : Int}

theorem sumArcs_sameShape (shape : SameShape net residual) (term : Nat → Int) :
    residual.sumArcs term = net.sumArcs term := by
  rw [sumArcs, sumArcs, shape.size]

theorem HasArc.capacity_add_flow (arc : net.HasArc edge source target capacity)
    (shape : SameShape net residual) : residual.capacity edge + residual.flow edge = capacity := by
  have kept := shape.pairs edge arc.inside
  rw [arc.capacity, arc.reverse, add_zero] at kept
  exact kept.symm

/-- Through an arc of the network that was built nothing flows yet. -/
theorem HasArc.share_eq (arc : net.HasArc edge source target capacity) (set : Finset Nat) :
    net.share set edge = if source ∈ set ∧ target ∉ set then capacity else 0 := by
  have nothing : net.flow edge = 0 := arc.reverse
  rw [share, arc.tail, arc.head, arc.capacity, nothing, ite_self, add_zero]

/-- What has left a set is what flows through the arcs that leave it, without what flows through the
    arcs that enter it. -/
theorem sumArcs_flow (built : net.Built) (shape : SameShape net residual) (set : Finset Nat) :
    net.sumArcs (fun edge =>
        (indicator set (net.tail edge) - indicator set (net.head edge)) * residual.flow edge) =
      net.outflow set - residual.outflow set := by
  rw [outflow_eq_sumArcs built.even, outflow_eq_sumArcs (shape.size ▸ built.even),
    sumArcs_sameShape shape, sumArcs, sumArcs, sumArcs, ← Finset.sum_sub_distrib]
  refine Finset.sum_congr rfl fun k member => ?_
  obtain ⟨half, size⟩ := built.even
  have inside : 2 * k < net.edges.size := by
    have := Finset.mem_range.1 member
    omega
  have idle : net.capacity (2 * k ^^^ 1) = 0 := built.idle _ (even_two_mul k)
  have kept := shape.pairs (2 * k) inside
  simp only [share, indicator, flow, ← shape.tail, ← shape.head, idle] at kept ⊢
  split_ifs <;> first | omega | simp_all

theorem flow_nonneg (formed : residual.WellFormed) (edge : Nat) : 0 ≤ residual.flow edge :=
  formed.capacities _

theorem HasArc.flow_le (arc : net.HasArc edge source target capacity) (shape : SameShape net residual)
    (formed : residual.WellFormed) : residual.flow edge ≤ capacity := by
  have left := arc.capacity_add_flow shape
  have := formed.capacities edge
  omega

end Residual

end StatBounds.Network
