import StatBounds.Proofs.Transport.Levels

/-! # Augmenting paths

A search for augmenting paths sends some amount from a node to the sink. It takes the amount from the
sets that hold the node and gives it to those that hold the sink. Edges that leave nodes of lower levels
are not touched meanwhile, so what was measured on the way down can still be sent on the way back. The
first search of a phase sends something, because an edge is only given up when nothing is left behind
it.
-/

namespace StatBounds.Network.Search

variable {levels : Levels} {sink : Nat}

/-- The search works on a well-formed network, and pending edges are edges of their nodes. -/
structure Ready (search : Search) : Prop where
  formed : search.net.WellFormed
  listed : ∀ node edge, edge ∈ search.pending.getD node [] →
    edge < search.net.edges.size ∧ search.net.tail edge = node

/-- What a search leaves after it has sent an amount from a node of some depth to the sink. -/
structure Sends (levels : Levels) (sink depth node : Nat) (limit : Int) (search : Search)
    (result : Int × Search) : Prop where
  ready : result.2.Ready
  shape : SameShape search.net result.2.net
  nonneg : 0 ≤ result.1
  atMost : result.1 ≤ limit
  outflow : ∀ set, result.2.net.outflow set = search.net.outflow set -
    (if node ∈ set then result.1 else 0) + (if sink ∈ set then result.1 else 0)
  untouched : ∀ edge d, edge < search.net.edges.size → d < depth →
    label levels (search.net.tail edge) = some d →
    result.2.net.capacity edge = search.net.capacity edge

theorem getD_set! (pending : Array (List Nat)) (node : Nat) (edges : List Nat) (other : Nat) :
    (pending.set! node edges).getD other [] =
      if other = node ∧ node < pending.size then edges else pending.getD other [] := by
  simp only [Array.set!_eq_setIfInBounds, Array.getD_eq_getD_getElem?, Array.getElem?_setIfInBounds]
  by_cases same : node = other
  · subst same
    by_cases inside : node < pending.size
    · simp [inside]
    · simp [inside]
  · simp [same, Ne.symm same]

theorem Ready.set {search : Search} (ready : search.Ready) {node : Nat} {edges : List Nat}
    (own : ∀ edge ∈ edges, edge < search.net.edges.size ∧ search.net.tail edge = node)
    {net : Network} (shape : SameShape search.net net) (formed : net.WellFormed) :
    Ready { net, pending := search.pending.set! node edges } where
  formed := formed
  listed := by
    intro other edge member
    rw [getD_set!] at member
    rw [← shape.size, ← shape.tail]
    split_ifs at member with same
    · rw [same.1]
      exact own edge member
    · exact ready.listed other edge member

theorem admits_iff {search : Search} {depth edge : Nat} (inside : edge < search.net.edges.size) :
    search.admits levels depth edge = true ↔
      0 < search.net.capacity edge ∧ label levels (search.net.head edge) = some (depth + 1) := by
  simp only [admits, capacity_eq, Network.head, Array.getElem?_eq_getElem inside, Option.map_some,
    Option.getD_some, Bool.and_eq_true, decide_eq_true_eq, beq_iff_eq, label, gt_iff_lt]

/-- Sending nothing first does not matter. -/
theorem Sends.trans {depth node : Nat} {limit : Int} {search middle : Search}
    {result : Int × Search} {target : Nat} {below : Int}
    (first : Sends levels sink (depth + 1) target below search (0, middle))
    (second : Sends levels sink depth node limit middle result) :
    Sends levels sink depth node limit search result where
  ready := second.ready
  shape := first.shape.trans second.shape
  nonneg := second.nonneg
  atMost := second.atMost
  outflow := by
    intro set
    rw [second.outflow, first.outflow]
    simp
  untouched := by
    intro edge d inside less labelled
    rw [second.untouched edge d (first.shape.size ▸ inside) less (first.shape.tail edge ▸ labelled)]
    exact first.untouched edge d inside (by omega) labelled

/-- What is sent from the node that an edge leads to can be sent along the edge before. -/
theorem Sends.along {depth node edge : Nat} {limit sent : Int} {search after : Search}
    {rest : List Nat} (inside : edge < search.net.edges.size) (leaves : search.net.tail edge = node)
    (labelled : label levels node = some depth)
    (further : label levels (search.net.head edge) = some (depth + 1))
    (own : ∀ other ∈ rest, other < search.net.edges.size ∧ search.net.tail other = node)
    (sends : Sends levels sink (depth + 1) (search.net.head edge)
      (min limit (search.net.capacity edge)) search (sent, after)) :
    Sends levels sink depth node limit search
      (sent, { net := after.net.push edge sent, pending := after.pending.set! node (edge :: rest) }) := by
  have room : sent ≤ after.net.capacity edge := by
    have kept := sends.untouched edge depth inside (by omega) (leaves ▸ labelled)
    have := sends.atMost
    dsimp only at kept this
    rw [kept]
    exact this.trans (min_le_right _ _)
  have nonneg : 0 ≤ sent := sends.nonneg
  have inside' : edge < after.net.edges.size := sends.shape.size ▸ inside
  have shape := sends.shape.trans (sameShape_push sends.ready.formed edge sent)
  have formed : (after.net.push edge sent).WellFormed := by
    refine (sameShape_push sends.ready.formed edge sent).formed sends.ready.formed fun other => ?_
    rcases lt_or_ge other after.net.edges.size with within | outside
    · rw [capacity_push after.net edge sent within]
      have := sends.ready.formed.capacities other
      dsimp only at this
      by_cases same : other = edge
      · subst same
        split_ifs <;> omega
      · simp only [same, if_false]
        split_ifs <;> omega
    · rw [capacity_of_size_le]
      rwa [← (sameShape_push sends.ready.formed edge sent).size]
  refine ⟨?_, shape, nonneg, sends.atMost.trans (min_le_left _ _), fun set => ?_,
    fun other d within less labelled' => ?_⟩
  · refine sends.ready.set ?_ (sameShape_push sends.ready.formed edge sent) formed
    intro other member
    dsimp only
    rw [← sends.shape.size, ← sends.shape.tail]
    rcases List.mem_cons.1 member with rfl | member
    · exact ⟨inside, leaves⟩
    · exact own other member
  · dsimp only
    rw [outflow_push sends.ready.formed inside', sends.outflow, ← sends.shape.tail, leaves,
      ← sends.shape.head]
    ring
  · have within' : other < after.net.edges.size := sends.shape.size ▸ within
    have other₁ : other ≠ edge := by
      rintro rfl
      rw [leaves, labelled] at labelled'
      have := Option.some.inj labelled'
      omega
    have other₂ : other ≠ edge ^^^ 1 := by
      rintro rfl
      rw [tail_reverse, further] at labelled'
      have := Option.some.inj labelled'
      omega
    dsimp only
    rw [capacity_push after.net edge sent within', if_neg other₁, if_neg other₂, sub_zero, add_zero]
    exact sends.untouched other d within (by omega) labelled'

/-! ## The path is followed -/

theorem tryEdges_cons (depth node : Nat) (limit : Int)
    (descend : Nat → Int → Search → Int × Search) (edge : Nat) (rest : List Nat) (search : Search) :
    tryEdges levels depth node limit descend (edge :: rest) search =
      if search.admits levels depth edge then
        let outcome := descend (search.net.head edge) (min limit (search.net.capacity edge)) search
        if outcome.1 > 0 then
          (outcome.1, { net := outcome.2.net.push edge outcome.1
                        pending := outcome.2.pending.set! node (edge :: rest) })
        else
          tryEdges levels depth node limit descend rest outcome.2
      else
        tryEdges levels depth node limit descend rest search := by
  rw [tryEdges]
  rfl

theorem sends_tryEdges {depth node : Nat} {limit : Int} (positive : 0 ≤ limit)
    (labelled : label levels node = some depth) {descend : Nat → Int → Search → Int × Search}
    (deeper : ∀ target below (search : Search), search.Ready → 0 ≤ below →
      label levels target = some (depth + 1) →
      Sends levels sink (depth + 1) target below search (descend target below search))
    (edges : List Nat) :
    ∀ search : Search, search.Ready →
      (∀ edge ∈ edges, edge < search.net.edges.size ∧ search.net.tail edge = node) →
      Sends levels sink depth node limit search
        (tryEdges levels depth node limit descend edges search) := by
  induction edges with
  | nil =>
      intro search ready _
      exact
        { ready := ready.set (by simp) (.refl _) ready.formed
          shape := .refl _
          nonneg := le_rfl
          atMost := positive
          outflow := by simp [tryEdges]
          untouched := fun _ _ _ _ _ => rfl }
  | cons edge rest ih =>
      intro search ready own
      obtain ⟨inside, leaves⟩ := own edge (by simp)
      have others : ∀ other ∈ rest, other < search.net.edges.size ∧ search.net.tail other = node :=
        fun other member => own other (by simp [member])
      rw [tryEdges_cons]
      split_ifs with admitted
      · obtain ⟨capacity, further⟩ := (admits_iff inside).1 admitted
        have sends := deeper (search.net.head edge) (min limit (search.net.capacity edge)) search ready
          (le_min positive capacity.le) further
        generalize descend (search.net.head edge) (min limit (search.net.capacity edge)) search =
          outcome at sends ⊢
        obtain ⟨sent, after⟩ := outcome
        dsimp only
        split_ifs with some
        · exact sends.along inside leaves labelled further others
        · obtain rfl : sent = 0 := le_antisymm (not_lt.1 some) sends.nonneg
          refine sends.trans (ih after sends.ready fun other member => ?_)
          have shape := sends.shape
          rw [← shape.size, ← shape.tail]
          exact others other member
      · exact ih search ready others

theorem sends_augment (nodes : Nat) :
    ∀ (depth node : Nat) (limit : Int) (search : Search), search.Ready → 0 ≤ limit →
      label levels node = some depth →
      Sends levels sink depth node limit search (augment levels sink nodes depth node limit search) := by
  induction nodes with
  | zero =>
      intro depth node limit search ready positive _
      exact ⟨ready, .refl _, le_rfl, positive, by simp [augment], fun _ _ _ _ _ => rfl⟩
  | succ nodes ih =>
      intro depth node limit search ready positive labelled
      rw [augment]
      split_ifs with arrived
      · subst arrived
        exact ⟨ready, .refl _, positive, le_rfl, by simp, fun _ _ _ _ _ => rfl⟩
      · exact sends_tryEdges positive labelled
          (fun target below search ready positive labelled =>
            ih (depth + 1) target below search ready positive labelled)
          _ search ready (fun edge member => ready.listed node edge member)

/-! ## Something is sent -/

def Forward (levels : Levels) (net : Network) (edge : Nat) : Prop :=
  0 < net.capacity edge ∧
    ∃ d, label levels (net.tail edge) = some d ∧ label levels (net.head edge) = some (d + 1)

/-- Some edge from one node to another leads one level further. -/
def Advances (levels : Levels) (net : Network) (source target : Nat) : Prop :=
  ∃ edge, edge < net.edges.size ∧ Forward levels net edge ∧ net.tail edge = source ∧
    net.head edge = target

/-- The sink is reached from a node by edges that lead one level further each. -/
abbrev Leads (levels : Levels) (sink : Nat) (net : Network) (node : Nat) : Prop :=
  Relation.ReflTransGen (Advances levels net) node sink

/-- An edge is given up only if nothing behind it leads to the sink. -/
def Live (levels : Levels) (sink : Nat) (search : Search) : Prop :=
  ∀ edge, edge < search.net.edges.size → edge ∉ search.pending.getD (search.net.tail edge) [] →
    Forward levels search.net edge → ¬ Leads levels sink search.net (search.net.head edge)

/-- A search sends something, or nothing leads from the node to the sink. -/
def Decides (levels : Levels) (sink node : Nat) (search : Search) (result : Int × Search) : Prop :=
  0 < result.1 ∨
    (result.2.net = search.net ∧ Live levels sink result.2 ∧ ¬ Leads levels sink search.net node)

theorem decides_tryEdges {depth node : Nat} {limit : Int} (positive : 0 < limit)
    (labelled : label levels node = some depth) (notArrived : node ≠ sink)
    {descend : Nat → Int → Search → Int × Search}
    (sends : ∀ target below (search : Search), search.Ready → 0 ≤ below →
      label levels target = some (depth + 1) →
      Sends levels sink (depth + 1) target below search (descend target below search))
    (deeper : ∀ target below (search : Search), search.Ready → Live levels sink search → 0 < below →
      label levels target = some (depth + 1) →
      Decides levels sink target search (descend target below search))
    (edges : List Nat) :
    ∀ search : Search, search.Ready → Live levels sink search →
      (∀ edge ∈ edges, edge < search.net.edges.size ∧ search.net.tail edge = node) →
      (∀ edge, edge < search.net.edges.size → search.net.tail edge = node → edge ∉ edges →
        Forward levels search.net edge → ¬ Leads levels sink search.net (search.net.head edge)) →
      Decides levels sink node search (tryEdges levels depth node limit descend edges search) := by
  induction edges with
  | nil =>
      intro search ready live _ exhausted
      refine .inr ⟨rfl, fun edge inside given forward => ?_, fun leads => ?_⟩
      · rw [tryEdges] at given forward ⊢
        by_cases own : search.net.tail edge = node
        · exact exhausted edge inside own (by simp) forward
        · refine live edge inside ?_ forward
          dsimp only at given
          rwa [getD_set!, if_neg (fun same => own same.1)] at given
      · rcases Relation.ReflTransGen.cases_head leads with arrived | ⟨next, advances, leads⟩
        · exact notArrived arrived
        · obtain ⟨edge, inside, forward, leaves, rfl⟩ := advances
          exact exhausted edge inside leaves (by simp) forward leads
  | cons edge rest ih =>
      intro search ready live own exhausted
      obtain ⟨inside, leaves⟩ := own edge (by simp)
      have others : ∀ other ∈ rest, other < search.net.edges.size ∧ search.net.tail other = node :=
        fun other member => own other (by simp [member])
      rw [tryEdges_cons]
      split_ifs with admitted
      · obtain ⟨capacity, further⟩ := (admits_iff inside).1 admitted
        have below : 0 < min limit (search.net.capacity edge) := lt_min positive capacity
        have sent := sends (search.net.head edge) _ search ready below.le further
        have decided := deeper (search.net.head edge) _ search ready live below further
        generalize descend (search.net.head edge) (min limit (search.net.capacity edge)) search =
          outcome at sent decided ⊢
        obtain ⟨amount, after⟩ := outcome
        dsimp only
        split_ifs with some
        · exact .inl some
        · obtain ⟨same, live, dead⟩ := decided.resolve_left some
          dsimp only at same live
          have finished := ih after sent.ready live (by rwa [same]) (by
            rw [same]
            intro other inside own fresh
            by_cases this : other = edge
            · rw [this]
              exact fun _ => dead
            · exact exhausted other inside own (by simp [this, fresh]))
          rwa [Decides, same] at finished
      · refine ih search ready live others fun other inside' same fresh forward => ?_
        by_cases this : other = edge
        · -- The edge that was passed over does not lead further.
          subst this
          obtain ⟨capacity, d, here, further⟩ := forward
          obtain rfl : depth = d := Option.some.inj (labelled.symm.trans (same ▸ here))
          exact absurd ((admits_iff inside).2 ⟨capacity, further⟩) admitted
        · exact exhausted other inside' same (by simp [this, fresh]) forward

theorem decides_augment (nodes : Nat) :
    ∀ (depth node : Nat) (limit : Int) (search : Search), search.Ready → Live levels sink search →
      0 < limit → label levels node = some depth →
      (∀ other d, label levels other = some d → d < depth + nodes) →
      Decides levels sink node search (augment levels sink nodes depth node limit search) := by
  induction nodes with
  | zero =>
      intro depth node limit search _ _ _ labelled shallow
      have := shallow node depth labelled
      omega
  | succ nodes ih =>
      intro depth node limit search ready live positive labelled shallow
      rw [augment]
      split_ifs with arrived
      · exact .inl positive
      · refine decides_tryEdges positive labelled arrived
          (fun target below search ready positive labelled =>
            sends_augment nodes (depth + 1) target below search ready positive labelled)
          (fun target below search ready live positive labelled =>
            ih (depth + 1) target below search ready live positive labelled
              fun other d labelled => by have := shallow other d labelled; omega)
          _ search ready live (fun edge member => ready.listed node edge member) ?_
        intro edge inside leaves given
        exact live edge inside (by rwa [leaves])

theorem ready_start {net : Network} (formed : net.WellFormed) :
    Ready { net, pending := net.leaving } where
  formed := formed
  listed := fun node edge member => (formed.leaving node edge).1 member

theorem live_start {net : Network} (formed : net.WellFormed) :
    Live levels sink { net, pending := net.leaving } :=
  fun edge inside given => absurd ((formed.leaving _ edge).2 ⟨inside, rfl⟩) given

theorem leads_of_labelled {net : Network} {source : Nat} (rooted : Rooted net source levels)
    {d : Nat} : ∀ {node : Nat}, label levels node = some d →
      Relation.ReflTransGen (Advances levels net) source node := by
  induction d with
  | zero =>
      intro node labelled
      rw [rooted.only node labelled]
  | succ d ih =>
      intro node labelled
      obtain ⟨before, here, edge, inside, capacity, leaves, enters⟩ := rooted.previous node d labelled
      refine (ih here).tail ⟨edge, inside, ⟨capacity, d, ?_, ?_⟩, leaves, enters⟩
      · rwa [leaves]
      · rwa [enters]

/-- The first search of a phase sends something to a sink that has a label. -/
theorem augment_pos {net : Network} (formed : net.WellFormed) {source d : Nat}
    (rooted : Rooted net source levels) (labelled : label levels sink = some d) {limit : Int}
    (positive : 0 < limit) :
    0 < (augment levels sink net.nodes 0 source limit { net, pending := net.leaving }).1 := by
  have shallow (other d : Nat) (labelled : label levels other = some d) : d < 0 + net.nodes := by
    have := rooted.lt_nodes labelled
    omega
  have live : Live levels sink { net, pending := net.leaving } := live_start formed
  have decided := decides_augment net.nodes 0 source limit _ (ready_start formed) live positive
    rooted.start shallow
  exact decided.resolve_right fun dead => dead.2.2 (leads_of_labelled rooted labelled)

end StatBounds.Network.Search
