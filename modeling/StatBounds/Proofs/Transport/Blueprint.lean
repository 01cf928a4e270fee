import StatBounds.Proofs.Transport.Arcs
import StatBounds.Transport.Basic

/-! # The network of a transportation problem

The arcs of the network of a transportation problem, in the order in which they are added: those that
supply the items, those by which an item goes to its bins, those by which the bins pass their items on,
and the one that leads back from the sink to the source.
-/

namespace StatBounds.Transportation

open Network (HasArc Grown)

variable (l : Layout)

theorem addSupplies_spec {net : Network} (built : net.Built) (empty : net.edges.size = 0)
    (nodes : net.nodes = l.nodes) :
    (l.addSupplies net).Built ∧ (l.addSupplies net).nodes = l.nodes ∧
      (∀ i < l.items, (l.addSupplies net).HasArc (2 * i) l.demandSource (l.item i) 1) ∧
      (l.addSupplies net).HasArc (2 * l.items) l.source l.demandSink l.items ∧
      ∀ term, (l.addSupplies net).sumArcs term =
        ∑ i ∈ Finset.range l.items, term (2 * i) + term (2 * l.items) := by
  have place (i : Nat) (inside : i < l.items) : l.item i < l.nodes := by
    simp only [Layout.item, Layout.nodes, Layout.sink]
    omega
  have ends : l.demandSource < l.nodes ∧ l.source < l.nodes ∧ l.demandSink < l.nodes := by
    simp only [Layout.demandSource, Layout.source, Layout.demandSink, Layout.nodes]
    omega
  have supplied (k : Nat) (le : k ≤ l.items) :
      let after := (List.range k).foldl (fun net i => net.addEdge l.demandSource (l.item i) 1) net
      after.Built ∧ after.nodes = l.nodes ∧ after.edges.size = 2 * k ∧
        (∀ i < k, after.HasArc (2 * i) l.demandSource (l.item i) 1) ∧
        ∀ term, after.sumArcs term = ∑ i ∈ Finset.range k, term (2 * i) := by
    induction k with
    | zero =>
        refine ⟨built, nodes, empty, fun i impossible => by omega, fun term => ?_⟩
        simp [Network.sumArcs, empty]
    | succ k ih =>
        obtain ⟨built, nodes, size, arcs, sum⟩ := ih (by omega)
        simp only [List.range_succ, List.foldl_append, List.foldl_cons, List.foldl_nil]
        generalize (List.range k).foldl (fun net i => net.addEdge l.demandSource (l.item i) 1) net =
          before at *
        refine ⟨Network.built_addEdge built (nodes ▸ ends.1) (nodes ▸ place k (by omega)) (by decide),
          (Network.nodes_addEdge ..).trans nodes, ?_, fun i inside => ?_, fun term => ?_⟩
        · rw [Network.size_addEdge, size]
          ring
        · rcases Nat.lt_or_eq_of_le (Nat.lt_succ_iff.1 inside) with less | rfl
          · exact (arcs i less).grown built Network.grown_addEdge
          · rw [← size]
            exact Network.hasArc_addEdge built
        · rw [Network.sumArcs_addEdge built, sum, size, Finset.sum_range_succ]
  obtain ⟨built, nodes, size, arcs, sum⟩ := supplied l.items le_rfl
  unfold Layout.addSupplies
  generalize (List.range l.items).foldl (fun net i => net.addEdge l.demandSource (l.item i) 1) net =
    before at *
  refine ⟨Network.built_addEdge built (nodes ▸ ends.2.1) (nodes ▸ ends.2.2) (by positivity),
    (Network.nodes_addEdge ..).trans nodes,
    fun i inside => (arcs i inside).grown built Network.grown_addEdge, ?_, fun term => ?_⟩
  · rw [← size]
    exact Network.hasArc_addEdge built
  · rw [Network.sumArcs_addEdge built, sum, size]

theorem addChoices_spec {i : Nat} (item : i < l.items) (bins : List Nat) :
    ∀ {net : Network}, net.Built → net.nodes = l.nodes → (∀ b ∈ bins, b < l.bins) →
      let (choices, after) := l.addChoices i bins net
      after.Built ∧ Grown net after ∧ choices.map Prod.snd = bins ∧
        (∀ choice ∈ choices, after.HasArc choice.1 (l.item i) (l.bin choice.2) 1) ∧
        ∀ term, after.sumArcs term =
          net.sumArcs term + (choices.map fun choice => term choice.1).sum := by
  induction bins with
  | nil =>
      intro net built _ _
      exact ⟨built, .refl net, rfl, by simp, by simp⟩
  | cons b rest ih =>
      intro net built nodes inRange
      have inside : b < l.bins := inRange b (by simp)
      have source : l.item i < net.nodes := by
        rw [nodes]
        simp only [Layout.item, Layout.nodes, Layout.sink]
        omega
      have target : l.bin b < net.nodes := by
        rw [nodes]
        simp only [Layout.bin, Layout.nodes, Layout.sink]
        omega
      have added := Network.built_addEdge built source target (by decide : (0 : Int) ≤ 1)
      have arc : (net.addEdge (l.item i) (l.bin b) 1).HasArc net.edges.size (l.item i) (l.bin b) 1 :=
        Network.hasArc_addEdge built
      have others := ih added ((Network.nodes_addEdge ..).trans nodes)
        fun other member => inRange other (by simp [member])
      rw [Layout.addChoices]
      generalize l.addChoices i rest (net.addEdge (l.item i) (l.bin b) 1) = outcome at others ⊢
      obtain ⟨choices, after⟩ := outcome
      obtain ⟨built', grown, bins, arcs, sum⟩ := others
      refine ⟨built', Network.grown_addEdge.trans grown, by simp [bins], ?_, fun term => ?_⟩
      · rintro choice member
        rcases List.mem_cons.1 member with rfl | member
        · exact arc.grown added grown
        · exact arcs choice member
      · rw [sum, Network.sumArcs_addEdge built, List.map_cons, List.sum_cons]
        ring

theorem addItems_spec (lists : List (List Nat)) :
    ∀ {i : Nat} {net : Network}, net.Built → net.nodes = l.nodes → i + lists.length ≤ l.items →
      (∀ bins ∈ lists, ∀ b ∈ bins, b < l.bins) →
      let (choices, after) := l.addItems i lists net
      after.Built ∧ Grown net after ∧ choices.map (List.map Prod.snd) = lists ∧
        (∀ j, ∀ choice ∈ choices.getD j [],
          after.HasArc choice.1 (l.item (i + j)) (l.bin choice.2) 1) ∧
        ∀ term, after.sumArcs term = net.sumArcs term +
          ∑ j ∈ Finset.range lists.length,
            ((choices.getD j []).map fun choice => term choice.1).sum := by
  induction lists with
  | nil =>
      intro i net built _ _ _
      exact ⟨built, .refl net, rfl, by simp, by simp⟩
  | cons bins rest ih =>
      intro i net built nodes fits inRange
      rw [List.length_cons] at fits
      have first := addChoices_spec l (i := i) (by omega) bins built nodes (inRange bins (by simp))
      rw [Layout.addItems]
      generalize l.addChoices i bins net = outcome at first ⊢
      obtain ⟨choices, middle⟩ := outcome
      obtain ⟨built', grown, own, arcs, sum⟩ := first
      have later := ih (i := i + 1) built' (grown.nodes.symm.trans nodes) (by omega)
        fun bins member => inRange bins (by simp [member])
      dsimp only at later ⊢
      generalize l.addItems (i + 1) rest middle = outcome at later ⊢
      obtain ⟨others, after⟩ := outcome
      obtain ⟨built'', grown', own', arcs', sum'⟩ := later
      refine ⟨built'', grown.trans grown', by simp [own, own'], ?_, fun term => ?_⟩
      · intro j choice member
        cases j with
        | zero => exact (arcs choice member).grown built' grown'
        | succ j =>
            rw [show i + (j + 1) = i + 1 + j by ring]
            exact arcs' j choice member
      · rw [sum', sum, List.length_cons, Finset.sum_range_succ']
        simp only [List.getD_cons_succ, List.getD_cons_zero]
        ring

theorem slack_eq {lo hi : Nat} (ordered : lo ≤ hi) (small : hi < 2 ^ 63) :
    slack lo hi = hi - lo := by
  rw [slack, Int.bmod_eq_of_le] <;> omega

/-- The arcs by which a bin passes its items on, the first of which is given: what exceeds the least
    count goes to the sink, and the least count is demanded. -/
structure Passes (net : Network) (node : Nat) (bounds : Nat × Nat) (edge : Nat) : Prop where
  pass : net.HasArc edge node l.sink (bounds.2 - bounds.1)
  demand : 0 < bounds.1 → net.HasArc (edge + 2) l.demandSource l.sink bounds.1
  owed : 0 < bounds.1 → net.HasArc (edge + 4) node l.demandSink bounds.1

def sumPasses (bounds : Nat × Nat) (edge : Nat) (term : Nat → Int) : Int :=
  term edge + if 0 < bounds.1 then term (edge + 2) + term (edge + 4) else 0

theorem Passes.grown {l : Layout} {net other : Network} {node : Nat} {bounds : Nat × Nat} {edge : Nat}
    (passes : Passes l net node bounds edge) (built : net.Built) (grown : Grown net other) :
    Passes l other node bounds edge where
  pass := passes.pass.grown built grown
  demand := fun some => (passes.demand some).grown built grown
  owed := fun some => (passes.owed some).grown built grown

theorem addBin_spec {net : Network} (built : net.Built) (nodes : net.nodes = l.nodes) {b : Nat}
    (inside : b < l.bins) {lo hi : Nat} (ordered : lo ≤ hi) (small : hi < 2 ^ 63) :
    let passed := net.addEdge (l.bin b) l.sink (slack lo hi)
    let after := if lo > 0 then (passed.addEdge l.demandSource l.sink lo).addEdge (l.bin b) l.demandSink lo
      else passed
    after.Built ∧ Grown net after ∧ Passes l after (l.bin b) (lo, hi) net.edges.size ∧
      ∀ term, after.sumArcs term = net.sumArcs term + sumPasses (lo, hi) net.edges.size term := by
  have ends : l.bin b < l.nodes ∧ l.sink < l.nodes ∧ l.demandSource < l.nodes ∧
      l.demandSink < l.nodes := by
    simp only [Layout.bin, Layout.sink, Layout.demandSource, Layout.demandSink, Layout.nodes]
    omega
  intro passed after
  have slackNonneg : 0 ≤ slack lo hi := by
    rw [slack_eq ordered small]
    omega
  have built₁ : passed.Built :=
    Network.built_addEdge built (nodes ▸ ends.1) (nodes ▸ ends.2.1) slackNonneg
  have nodes₁ : passed.nodes = l.nodes := (Network.nodes_addEdge ..).trans nodes
  have grown₁ : Grown net passed := Network.grown_addEdge
  have pass : passed.HasArc net.edges.size (l.bin b) l.sink (hi - lo) := by
    rw [← slack_eq ordered small]
    exact Network.hasArc_addEdge built
  have size₁ : passed.edges.size = net.edges.size + 2 := Network.size_addEdge ..
  rcases Nat.eq_zero_or_pos lo with rfl | some
  · refine ⟨built₁, grown₁, ⟨pass, fun some => absurd some (lt_irrefl 0),
      fun some => absurd some (lt_irrefl 0)⟩, fun term => ?_⟩
    exact (Network.sumArcs_addEdge built _ _ _ term).trans (by simp [sumPasses])
  · let demanded := passed.addEdge l.demandSource l.sink lo
    have same : after = demanded.addEdge (l.bin b) l.demandSink lo := if_pos some
    have built₂ : demanded.Built :=
      Network.built_addEdge built₁ (nodes₁ ▸ ends.2.2.1) (nodes₁ ▸ ends.2.1) (by positivity)
    have nodes₂ : demanded.nodes = l.nodes := (Network.nodes_addEdge ..).trans nodes₁
    have grown₂ : Grown passed demanded := Network.grown_addEdge
    have grown₃ : Grown demanded after := same ▸ Network.grown_addEdge
    have size₂ : demanded.edges.size = net.edges.size + 4 := by
      rw [Network.size_addEdge, size₁]
    have demand : demanded.HasArc (net.edges.size + 2) l.demandSource l.sink lo := by
      rw [← size₁]
      exact Network.hasArc_addEdge built₁
    have owed : after.HasArc (net.edges.size + 4) (l.bin b) l.demandSink lo := by
      rw [same, ← size₂]
      exact Network.hasArc_addEdge built₂
    refine ⟨?_, grown₁.trans (grown₂.trans grown₃),
      ⟨pass.grown built₁ (grown₂.trans grown₃), fun _ => demand.grown built₂ grown₃, fun _ => owed⟩,
      fun term => ?_⟩
    · rw [same]
      exact Network.built_addEdge built₂ (nodes₂ ▸ ends.1) (nodes₂ ▸ ends.2.2.2) (by positivity)
    · rw [same, Network.sumArcs_addEdge built₂, Network.sumArcs_addEdge built₁,
        Network.sumArcs_addEdge built, size₂, size₁, sumPasses, if_pos some]
      ring

theorem addBins_spec (bounds : List (Nat × Nat)) :
    ∀ {b : Nat} {net : Network}, net.Built → net.nodes = l.nodes → b + bounds.length ≤ l.bins →
      (∀ pair ∈ bounds, pair.1 ≤ pair.2 ∧ pair.2 < 2 ^ 63) →
      (l.addBins b bounds net).Built ∧ Grown net (l.addBins b bounds net) ∧
        ∃ place : Nat → Nat,
          (∀ j < bounds.length,
            Passes l (l.addBins b bounds net) (l.bin (b + j)) (bounds.getD j (0, 0)) (place j)) ∧
          ∀ term, (l.addBins b bounds net).sumArcs term = net.sumArcs term +
            ∑ j ∈ Finset.range bounds.length, sumPasses (bounds.getD j (0, 0)) (place j) term := by
  induction bounds with
  | nil =>
      intro b net built _ _ _
      exact ⟨built, .refl net, fun _ => 0, by simp, by simp [Layout.addBins]⟩
  | cons pair rest ih =>
      intro b net built nodes fits valid
      obtain ⟨lo, hi⟩ := pair
      rw [List.length_cons] at fits
      obtain ⟨ordered, small⟩ := valid (lo, hi) (by simp)
      obtain ⟨built₁, grown₁, passes, sum₁⟩ :=
        addBin_spec l built nodes (b := b) (by omega) ordered small
      rw [Layout.addBins]
      dsimp only at built₁ grown₁ passes sum₁ ⊢
      generalize (if lo > 0 then ((net.addEdge (l.bin b) l.sink (slack lo hi)).addEdge l.demandSource
        l.sink lo).addEdge (l.bin b) l.demandSink lo
        else net.addEdge (l.bin b) l.sink (slack lo hi)) = middle at *
      obtain ⟨built₂, grown₂, place, others, sum₂⟩ :=
        ih (b := b + 1) built₁ (grown₁.nodes.symm.trans nodes) (by omega)
          fun pair member => valid pair (by simp [member])
      refine ⟨built₂, grown₁.trans grown₂, fun j => if j = 0 then net.edges.size else place (j - 1),
        fun j inside => ?_, fun term => ?_⟩
      · cases j with
        | zero => exact passes.grown built₁ grown₂
        | succ j =>
            rw [show b + (j + 1) = b + 1 + j by ring]
            exact others j (by simpa using inside)
      · rw [sum₂, sum₁, List.length_cons, Finset.sum_range_succ']
        simp only [List.getD_cons_succ, List.getD_cons_zero, if_true, Nat.add_one_ne_zero, if_false,
          Nat.add_sub_cancel]
        ring

/-! ## The whole network -/

/-- The bounds of every bin are in order and small enough for the words that hold capacities. -/
def Valid (t : Transportation) : Prop :=
  ∀ pair ∈ t.bounds, pair.1 ≤ pair.2 ∧ pair.2 < 2 ^ 63

def layout (t : Transportation) : Layout where
  items := t.items
  bins := t.bins

/-- The bounds of a bin. -/
def boundsOf (t : Transportation) (b : Nat) : Nat × Nat :=
  t.bounds.getD b (0, 0)

/-- The arcs of the network of a problem. -/
structure Blueprint (t : Transportation) (choices : List (List (Nat × Nat))) (net : Network)
    (place : Nat → Nat) (last : Nat) : Prop where
  built : net.Built
  nodes : net.nodes = t.layout.nodes
  allowed : choices.map (List.map Prod.snd) = t.allowed
  supply : ∀ i < t.items, net.HasArc (2 * i) t.layout.demandSource (t.layout.item i) 1
  owed : net.HasArc (2 * t.items) t.layout.source t.layout.demandSink t.items
  choice : ∀ i, ∀ choice ∈ choices.getD i [],
    net.HasArc choice.1 (t.layout.item i) (t.layout.bin choice.2) 1
  passes : ∀ b < t.bins, Passes t.layout net (t.layout.bin b) (t.boundsOf b) (place b)
  back : net.HasArc last t.layout.sink t.layout.source t.items
  sum : ∀ term, net.sumArcs term =
    ∑ i ∈ Finset.range t.items, term (2 * i) + term (2 * t.items) +
      ∑ i ∈ Finset.range t.items, ((choices.getD i []).map fun choice => term choice.1).sum +
      ∑ b ∈ Finset.range t.bins, sumPasses (t.boundsOf b) (place b) term + term last

theorem blueprint_network {t : Transportation} (valid : t.Valid) :
    ∃ place last, Blueprint t t.network.1 t.network.2 place last := by
  have start := Network.built_ofNodes t.layout.nodes
  obtain ⟨built₁, nodes₁, supply, owed, sum₁⟩ :=
    addSupplies_spec t.layout start (by simp [Network.ofNodes]) (Network.nodes_ofNodes _)
  have chosen := addItems_spec t.layout t.allowed (i := 0) built₁ nodes₁
    (by simp [layout, items]) fun bins member b inside => t.inRange bins member b inside
  unfold network
  change ∃ place last, Blueprint t
    (let outcome := t.layout.addItems 0 t.allowed (t.layout.addSupplies (.ofNodes t.layout.nodes))
     (outcome.1, (t.layout.addBins 0 t.bounds outcome.2).addEdge t.layout.sink t.layout.source t.items)).1
    (let outcome := t.layout.addItems 0 t.allowed (t.layout.addSupplies (.ofNodes t.layout.nodes))
     (outcome.1, (t.layout.addBins 0 t.bounds outcome.2).addEdge t.layout.sink t.layout.source t.items)).2
    place last
  generalize t.layout.addItems 0 t.allowed (t.layout.addSupplies (.ofNodes t.layout.nodes)) = outcome
    at chosen ⊢
  obtain ⟨choices, middle⟩ := outcome
  obtain ⟨built₂, grown₂, allowed, choice, sum₂⟩ := chosen
  have nodes₂ : middle.nodes = t.layout.nodes := grown₂.nodes.symm.trans nodes₁
  obtain ⟨built₃, grown₃, place, passes, sum₃⟩ :=
    addBins_spec t.layout t.bounds (b := 0) built₂ nodes₂ (by simp [layout, bins]) valid
  dsimp only
  generalize t.layout.addBins 0 t.bounds middle = binned at *
  have nodes₃ : binned.nodes = t.layout.nodes := grown₃.nodes.symm.trans nodes₂
  have ends : t.layout.sink < binned.nodes ∧ t.layout.source < binned.nodes := by
    rw [nodes₃]
    simp only [Layout.sink, Layout.source, Layout.nodes]
    omega
  have grown₄ : Grown binned (binned.addEdge t.layout.sink t.layout.source t.items) :=
    Network.grown_addEdge
  refine ⟨place, binned.edges.size,
    { built := Network.built_addEdge built₃ ends.1 ends.2 (by positivity)
      nodes := (Network.nodes_addEdge ..).trans nodes₃
      allowed := allowed
      supply := fun i inside => (supply i inside).grown built₁ (grown₂.trans (grown₃.trans grown₄))
      owed := owed.grown built₁ (grown₂.trans (grown₃.trans grown₄))
      choice := fun i pair member => ?_
      passes := fun b inside => ?_
      back := Network.hasArc_addEdge built₃
      sum := fun term => ?_ }⟩
  · have arc := choice i pair member
    rw [zero_add] at arc
    exact arc.grown built₂ (grown₃.trans grown₄)
  · have passed := passes b inside
    rw [zero_add] at passed
    exact passed.grown built₃ grown₄
  · rw [Network.sumArcs_addEdge built₃, sum₃, sum₂, sum₁]
    rfl

end StatBounds.Transportation
