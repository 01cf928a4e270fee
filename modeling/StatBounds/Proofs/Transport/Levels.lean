import StatBounds.Proofs.Transport.Residual

/-! # Levels of a residual network

The rounds of a breadth-first search. After each round the nodes up to some depth are labelled, and
whatever they lead to is labelled or will be in the next round. In the end the labelled nodes are closed
under edges with capacity left, and every label is reached from the source one level at a time.
-/

namespace StatBounds.Network

/-- The label of a node. -/
def label (levels : Levels) (node : Nat) : Option Nat :=
  levels.getD node none

theorem label_set! (levels : Levels) (node : Nat) (d : Option Nat) (other : Nat) :
    label (levels.set! node d) other =
      if other = node ∧ node < levels.size then d else label levels other := by
  simp only [label, Array.set!_eq_setIfInBounds, Array.getD_eq_getD_getElem?,
    Array.getElem?_setIfInBounds]
  by_cases same : node = other
  · subst same
    by_cases inside : node < levels.size
    · simp [inside]
    · simp [inside]
  · simp [same, Ne.symm same]

theorem label_of_size_le {levels : Levels} {node : Nat} (outside : levels.size ≤ node) :
    label levels node = none := by
  rw [label, Array.getD_eq_getD_getElem?, Array.getElem?_eq_none outside]
  rfl

/-! ## One round -/

/-- Reaching a list of nodes labels those of them that had no label, and collects them. -/
theorem foldl_reach (depth : Nat) (nodes : List Nat) (levels : Levels) (reached : List Nat) :
    let after := nodes.foldl (reach depth) (levels, reached)
    after.1.size = levels.size ∧
      (∀ node, label after.1 node =
        if label levels node = none ∧ node ∈ nodes ∧ node < levels.size then some depth
        else label levels node) ∧
      ∀ node, node ∈ after.2 ↔
        node ∈ reached ∨ (label levels node = none ∧ node ∈ nodes ∧ node < levels.size) := by
  induction nodes generalizing levels reached with
  | nil => simp
  | cons first rest ih =>
      rw [List.foldl_cons]
      by_cases fresh : label levels first = none ∧ first < levels.size
      · -- The first node is labelled now and is passed over later on.
        have step : reach depth (levels, reached) first =
            (levels.set! first (some depth), first :: reached) := by
          have unlabelled : levels.getD first (some 0) = none := by
            have := fresh.1
            simp only [label, Array.getD_eq_getD_getElem?, Array.getElem?_eq_getElem fresh.2,
              Option.getD_some] at this ⊢
            exact this
          simp only [reach, unlabelled]
        rw [step]
        have kept : (levels.set! first (some depth)).size = levels.size := by simp
        obtain ⟨size, labels, members⟩ := ih (levels.set! first (some depth)) (first :: reached)
        refine ⟨size.trans kept, fun node => ?_, fun node => ?_⟩
        · rw [labels node, kept, label_set!]
          by_cases same : node = first
          · subst same
            simp [fresh]
          · simp [same]
        · rw [members node, kept, label_set!]
          by_cases same : node = first
          · subst same
            simp [fresh]
          · simp [same]
      · have step : reach depth (levels, reached) first = (levels, reached) := by
          unfold reach
          split
          · rfl
          · rename_i unlabelled
            refine absurd ⟨?_, ?_⟩ fresh
            · simp only [label, Array.getD_eq_getD_getElem?] at unlabelled ⊢
              cases same : levels[first]? with
              | none => rfl
              | some d =>
                  rw [same] at unlabelled
                  exact unlabelled
            · by_contra outside
              simp only [Array.getD_eq_getD_getElem?,
                Array.getElem?_eq_none (not_lt.1 outside)] at unlabelled
              exact absurd unlabelled (by simp)
        rw [step]
        obtain ⟨size, labels, members⟩ := ih levels reached
        have passed (node : Nat) :
            (label levels node = none ∧ node ∈ first :: rest ∧ node < levels.size) ↔
              (label levels node = none ∧ node ∈ rest ∧ node < levels.size) := by
          by_cases same : node = first
          · subst same
            tauto
          · simp [same]
        exact ⟨size, fun node => by simp only [labels node, passed],
          fun node => by rw [members node, passed]⟩

def Carries (net : Network) (source target : Nat) : Prop :=
  ∃ edge, edge < net.edges.size ∧ 0 < net.capacity edge ∧ net.tail edge = source ∧
    net.head edge = target

theorem mem_successors {net : Network} (formed : net.WellFormed) {source target : Nat} :
    target ∈ net.successors source ↔ net.Carries source target := by
  simp only [successors, List.mem_filterMap, formed.leaving]
  constructor
  · rintro ⟨edge, ⟨inside, leaves⟩, found⟩
    rw [Array.getElem?_eq_getElem inside] at found
    refine ⟨edge, inside, ?_, leaves, ?_⟩
    · rw [capacity_eq, Array.getElem?_eq_getElem inside]
      simp at found
      exact found.1
    · rw [head, Array.getElem?_eq_getElem inside]
      simp at found
      exact found.2
  · rintro ⟨edge, inside, positive, leaves, enters⟩
    refine ⟨edge, ⟨inside, leaves⟩, ?_⟩
    rw [capacity_eq, Array.getElem?_eq_getElem inside] at positive
    rw [head, Array.getElem?_eq_getElem inside] at enters
    rw [Array.getElem?_eq_getElem inside]
    simp at positive enters ⊢
    exact ⟨positive, enters⟩

/-! ## All rounds -/

/-- Labels that can be followed back to the source one level at a time. -/
structure Rooted (net : Network) (source : Nat) (levels : Levels) : Prop where
  size : levels.size = net.nodes
  start : label levels source = some 0
  only : ∀ node, label levels node = some 0 → node = source
  previous : ∀ node d, label levels node = some (d + 1) →
    ∃ before, label levels before = some d ∧ net.Carries before node

theorem Rooted.inhabited {net : Network} {source : Nat} {levels : Levels}
    (rooted : Rooted net source levels) {node d : Nat} (labelled : label levels node = some d) :
    ∀ k ≤ d, ∃ other, label levels other = some k := by
  induction d generalizing node with
  | zero =>
      intro k le
      obtain rfl : k = 0 := by omega
      exact ⟨node, labelled⟩
  | succ d ih =>
      intro k le
      rcases Nat.lt_or_eq_of_le le with less | rfl
      · obtain ⟨before, labelled, -⟩ := rooted.previous node d labelled
        exact ih labelled k (by omega)
      · exact ⟨node, labelled⟩

theorem Rooted.lt_nodes {net : Network} {source : Nat} {levels : Levels}
    (rooted : Rooted net source levels) {node d : Nat} (labelled : label levels node = some d) :
    d < net.nodes := by
  choose! other found using rooted.inhabited labelled
  have maps : ∀ k ∈ Finset.range (d + 1), other k ∈ Finset.range net.nodes := by
    intro k member
    by_contra outside
    have := found k (Nat.lt_succ_iff.1 (Finset.mem_range.1 member))
    rw [Finset.mem_range, not_lt, ← rooted.size] at outside
    rw [label_of_size_le outside] at this
    exact absurd this (by simp)
  have injective : Set.InjOn other (Finset.range (d + 1)) := by
    intro j memberJ k memberK same
    rw [Finset.coe_range, Set.mem_Iio] at memberJ memberK
    have first := found j (by omega)
    have second := found k (by omega)
    rw [same, second] at first
    exact (Option.some.inj first).symm
  have := Finset.card_le_card_of_injOn other maps injective
  rw [Finset.card_range, Finset.card_range] at this
  omega

/-- The labels up to some depth: the nodes of that depth are the frontier, and everything before it leads
    to labelled nodes only. -/
structure Explored (net : Network) (source depth : Nat) (frontier : List Nat) (levels : Levels) : Prop
    extends Rooted net source levels where
  bound : ∀ node d, label levels node = some d → d ≤ depth
  frontier : ∀ node, node ∈ frontier ↔ label levels node = some depth
  closed : ∀ node d, label levels node = some d → d < depth →
    ∀ next, net.Carries node next → ∃ k ≤ d + 1, label levels next = some k

/-- The labels of a finished search. -/
structure Levelled (net : Network) (source : Nat) (levels : Levels) : Prop
    extends Rooted net source levels where
  closed : ∀ node d, label levels node = some d →
    ∀ next, net.Carries node next → ∃ k ≤ d + 1, label levels next = some k

theorem Carries.lt_nodes {net : Network} (formed : net.WellFormed) {source target : Nat}
    (carries : net.Carries source target) : target < net.nodes := by
  obtain ⟨edge, inside, -, -, rfl⟩ := carries
  exact formed.heads edge inside

/-- A round either finds nothing to label, and then the search is finished, or labels the next depth. -/
theorem Explored.round {net : Network} (formed : net.WellFormed) {source depth : Nat}
    {frontier : List Nat} {levels : Levels} (explored : Explored net source depth frontier levels) :
    let after := (frontier.flatMap net.successors).foldl (reach (depth + 1)) (levels, [])
    (after.2 = [] → Levelled net source after.1) ∧
      (after.2 ≠ [] → Explored net source (depth + 1) after.2 after.1) := by
  intro after
  obtain ⟨size, labels, members⟩ :=
    foldl_reach (depth + 1) (frontier.flatMap net.successors) levels []
  have reachable (node : Nat) : node ∈ frontier.flatMap net.successors ↔
      ∃ before, label levels before = some depth ∧ net.Carries before node := by
    simp only [List.mem_flatMap, explored.frontier, mem_successors formed]
  have keeps {node d : Nat} (labelled : label levels node = some d) :
      label after.1 node = some d := by
    rw [labels node, labelled]
    simp
  have fresh {node : Nat} (unlabelled : label levels node = none)
      (inside : ∃ before, label levels before = some depth ∧ net.Carries before node) :
      label after.1 node = some (depth + 1) ∧ node ∈ after.2 := by
    obtain ⟨before, labelled, carries⟩ := inside
    have small : node < levels.size := by
      rw [explored.size]
      exact carries.lt_nodes formed
    have member := (reachable node).2 ⟨before, labelled, carries⟩
    refine ⟨?_, (members node).2 (.inr ⟨unlabelled, member, small⟩)⟩
    rw [labels node, if_pos ⟨unlabelled, member, small⟩]
  have back {node d : Nat} (labelled : label after.1 node = some d) :
      label levels node = some d ∨ (d = depth + 1 ∧ node ∈ after.2 ∧
        ∃ before, label levels before = some depth ∧ net.Carries before node) := by
    rw [labels node] at labelled
    split_ifs at labelled with new
    · exact .inr ⟨(Option.some.inj labelled).symm, (members node).2 (.inr new), (reachable node).1 new.2.1⟩
    · exact .inl labelled
  have rooted : Rooted net source after.1 :=
    { size := size.trans explored.size
      start := keeps explored.start
      only := by
        intro node labelled
        rcases back labelled with old | ⟨impossible, -⟩
        · exact explored.only node old
        · omega
      previous := by
        intro node d labelled
        rcases back labelled with old | ⟨same, -, before, labelled, carries⟩
        · obtain ⟨before, labelled, carries⟩ := explored.previous node d old
          exact ⟨before, keeps labelled, carries⟩
        · obtain rfl : d = depth := by omega
          exact ⟨before, keeps labelled, carries⟩ }
  have closed (node d : Nat) (labelled : label levels node = some d) (next : Nat)
      (carries : net.Carries node next) : ∃ k ≤ d + 1, label after.1 next = some k := by
    rcases Nat.lt_or_eq_of_le (explored.bound node d labelled) with less | rfl
    · obtain ⟨k, le, old⟩ := explored.closed node d labelled less next carries
      exact ⟨k, le, keeps old⟩
    · cases old : label levels next with
      | some k => exact ⟨k, (explored.bound next k old).trans (by omega), keeps old⟩
      | none => exact ⟨d + 1, le_rfl, (fresh old ⟨node, labelled, carries⟩).1⟩
  refine ⟨fun finished => { rooted with closed := ?_ }, fun some => { rooted with
    bound := ?_, frontier := ?_, closed := ?_ }⟩
  · intro node d labelled
    rcases back labelled with old | ⟨-, impossible, -⟩
    · exact closed node d old
    · rw [finished] at impossible
      exact absurd impossible (by simp)
  · intro node d labelled
    rcases back labelled with old | ⟨rfl, -⟩
    · exact (explored.bound node d old).trans (by omega)
    · exact le_rfl
  · intro node
    constructor
    · intro member
      rcases (members node).1 member with impossible | ⟨unlabelled, inside, -⟩
      · exact absurd impossible (by simp)
      · exact (fresh unlabelled ((reachable node).1 inside)).1
    · intro labelled
      rcases back labelled with old | ⟨-, member, -⟩
      · have := explored.bound node (depth + 1) old
        omega
      · exact member
  · intro node d labelled less
    rcases back labelled with old | ⟨impossible, -⟩
    · exact closed node d old
    · omega

theorem levelled_spread {net : Network} (formed : net.WellFormed) {source : Nat} (rounds : Nat) :
    ∀ {depth : Nat} {frontier : List Nat} {levels : Levels}, net.nodes ≤ depth + rounds →
      frontier ≠ [] → Explored net source depth frontier levels →
      Levelled net source (net.spread rounds depth frontier levels) := by
  induction rounds with
  | zero =>
      intro depth frontier levels enough some explored
      -- A frontier as deep as there are nodes cannot be.
      obtain ⟨node, member⟩ := List.exists_mem_of_ne_nil frontier some
      have := explored.lt_nodes ((explored.frontier node).1 member)
      omega
  | succ rounds ih =>
      intro depth frontier levels enough some explored
      obtain ⟨finished, continued⟩ := explored.round formed
      rw [spread]
      dsimp only
      split_ifs with stop
      · exact finished (List.isEmpty_iff.1 stop)
      · have more : _ ≠ [] := fun nothing => stop (List.isEmpty_iff.2 nothing)
        exact ih (by omega) more (continued more)

/-- Breadth-first search from a node labels what it leads to. -/
theorem levelled_levels {net : Network} (formed : net.WellFormed) {source : Nat}
    (inside : source < net.nodes) : Levelled net source (net.levels source) := by
  have labels (node : Nat) : label ((Array.replicate net.nodes none).set! source (some 0)) node =
      if node = source then some 0 else none := by
    rw [label_set!, Array.size_replicate]
    by_cases same : node = source
    · simp [same, inside]
    · simp only [same, false_and, if_false]
      simp [label, Array.getD_eq_getD_getElem?, Array.getElem?_replicate]
      split_ifs <;> rfl
  refine levelled_spread formed net.nodes (by omega) (by simp)
    { size := by simp
      start := by rw [labels, if_pos rfl]
      only := ?_
      previous := ?_
      bound := ?_
      frontier := ?_
      closed := ?_ }
  · intro node labelled
    rw [labels] at labelled
    by_contra other
    rw [if_neg other] at labelled
    exact absurd labelled (by simp)
  · intro node d labelled
    rw [labels] at labelled
    split_ifs at labelled
    exact absurd labelled (by simp)
  · intro node d labelled
    rw [labels] at labelled
    split_ifs at labelled
    exact (Option.some.inj labelled).ge
  · intro node
    rw [labels, List.mem_singleton]
    split_ifs with same
    · exact iff_of_true same rfl
    · exact iff_of_false same (by simp)
  · intro node d labelled less
    omega

end StatBounds.Network
