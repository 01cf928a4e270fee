import StatBounds.Proofs.Transport.Augmentation

/-! # Maximum flow

Whatever the phases send leaves every set of nodes that separates the source from the sink. They end
when a set of the labelled nodes has no capacity left, so what has been sent by then is the capacity that
this set had, and no placement of flow can be greater.
-/

namespace StatBounds.Network

variable {source sink : Nat}

/-- What some phases leave after they have raised the total: each set that separates the source from the
    sink has lost the difference. -/
structure Raises (source sink : Nat) (total : Int) (net : Network) (result : Int × Network) : Prop where
  formed : result.2.WellFormed
  shape : SameShape net result.2
  le : total ≤ result.1
  outflow : ∀ set, result.2.outflow set = net.outflow set -
    (if source ∈ set then result.1 - total else 0) + (if sink ∈ set then result.1 - total else 0)

theorem Raises.refl (total : Int) {net : Network} (formed : net.WellFormed) :
    Raises source sink total net (total, net) where
  formed := formed
  shape := .refl net
  le := le_rfl
  outflow := by simp

theorem Raises.trans {total middle : Int} {net after : Network} {result : Int × Network}
    (first : Raises source sink total net (middle, after))
    (second : Raises source sink middle after result) : Raises source sink total net result where
  formed := second.formed
  shape := first.shape.trans second.shape
  le := first.le.trans second.le
  outflow := by
    intro set
    rw [second.outflow, first.outflow]
    dsimp only
    split_ifs <;> ring

namespace Search

variable {levels : Levels}

theorem Sends.raises {limit : Int} {search : Search} {result : Int × Search}
    (sends : Sends levels sink 0 source limit search result) (total : Int) :
    Raises source sink total search.net (total + result.1, result.2.net) where
  formed := sends.ready.formed
  shape := sends.shape
  le := by
    have := sends.nonneg
    dsimp only
    omega
  outflow := by
    intro set
    rw [sends.outflow]
    dsimp only
    rw [add_sub_cancel_left]

theorem raises_augmentAll (start : label levels source = some 0) (paths : Nat) :
    ∀ (total : Int) (search : Search), search.Ready →
      let result := augmentAll levels source sink paths total search
      Raises source sink total search.net (result.1, result.2.net) := by
  induction paths with
  | zero =>
      intro total search ready
      exact .refl total ready.formed
  | succ paths ih =>
      intro total search ready
      have positive : (0 : Int) ≤ unlimited := by decide
      have sends : Sends levels sink 0 source unlimited search _ :=
        sends_augment search.net.nodes 0 source unlimited search ready positive start
      have raised := sends.raises total
      rw [augmentAll]
      generalize augment levels sink search.net.nodes 0 source unlimited search = outcome at *
      obtain ⟨sent, after⟩ := outcome
      dsimp only at raised ⊢
      split_ifs with nothing
      · subst nothing
        rwa [add_zero] at raised
      · exact raised.trans (ih (total + sent) after sends.ready)

theorem lt_augmentAll {net : Network} (formed : net.WellFormed) (rooted : Rooted net source levels)
    {d : Nat} (labelled : label levels sink = some d) (paths : Nat) (total : Int) :
    total < (augmentAll levels source sink (paths + 1) total { net, pending := net.leaving }).1 := by
  have limit : (0 : Int) < unlimited := by decide
  have positive := augment_pos formed rooted labelled limit
  have sends : Sends levels sink 0 source unlimited { net, pending := net.leaving } _ :=
    sends_augment net.nodes 0 source unlimited _ (ready_start formed) limit.le rooted.start
  rw [augmentAll]
  generalize augment levels sink net.nodes 0 source unlimited { net, pending := net.leaving } =
    outcome at *
  obtain ⟨sent, after⟩ := outcome
  dsimp only at positive ⊢
  rw [if_neg positive.ne']
  have raised : Raises source sink (total + sent) after.net _ :=
    raises_augmentAll rooted.start paths (total + sent) after sends.ready
  have := raised.le
  dsimp only at this
  omega

end Search

/-- The labelled nodes are a set that nothing can leave any more. -/
theorem Levelled.outflow_eq_zero {net : Network} (formed : net.WellFormed) {levels : Levels}
    (levelled : Levelled net source levels) :
    net.outflow ((Finset.range net.nodes).filter fun node => label levels node ≠ none) = 0 := by
  refine Finset.sum_eq_zero fun edge member => ?_
  have inside := Finset.mem_range.1 member
  split_ifs with crosses
  · obtain ⟨labelled, outside⟩ := crosses
    obtain ⟨d, labelled⟩ := Option.ne_none_iff_exists'.1 (Finset.mem_filter.1 labelled).2
    by_contra capacity
    have positive : 0 < net.capacity edge := lt_of_le_of_ne (formed.capacities edge) (Ne.symm capacity)
    obtain ⟨k, -, reached⟩ :=
      levelled.closed _ d labelled (net.head edge) ⟨edge, inside, positive, rfl, rfl⟩
    refine outside (Finset.mem_filter.2 ⟨Finset.mem_range.2 (formed.heads edge inside), ?_⟩)
    simp [reached]
  · rfl

theorem raises_runPhases (distinct : source ≠ sink) (paths : Nat) (phases : Nat) :
    ∀ (total : Int) (net : Network), net.WellFormed → source < net.nodes →
      net.outflow {source} < phases →
      let result := runPhases source sink (paths + 1) phases total net
      Raises source sink total net result ∧
        ∃ set, source ∈ set ∧ sink ∉ set ∧ result.2.outflow set = 0 := by
  induction phases with
  | zero =>
      intro total net formed inside few
      have := outflow_nonneg formed {source}
      omega
  | succ phases ih =>
      intro total net formed inside few
      have levelled := levelled_levels formed inside
      rw [runPhases]
      split
      · rename_i unreached
        refine ⟨.refl total formed, _, ?_, ?_, levelled.outflow_eq_zero formed⟩
        · simp [inside, levelled.start]
        · simp only [Finset.mem_filter, not_and, not_not]
          exact fun _ => unreached
      · rename_i d reached
        have more := Search.lt_augmentAll formed levelled.toRooted reached paths total
        have raised : Raises source sink total net _ :=
          Search.raises_augmentAll levelled.start (paths + 1) total _ (Search.ready_start formed)
        dsimp only at raised ⊢
        have fewer := raised.outflow {source}
        dsimp only at fewer
        simp only [Finset.mem_singleton, if_true, distinct.symm, if_false, add_zero] at fewer
        obtain ⟨finished, cut⟩ := ih _ _ raised.formed (raised.shape.nodes ▸ inside)
          (by dsimp only; omega)
        exact ⟨raised.trans finished, cut⟩

theorem sum_toFinset_le (f : Nat → Nat) (list : List Nat) :
    ∑ x ∈ list.toFinset, f x ≤ (list.map f).sum := by
  induction list with
  | nil => simp
  | cons first rest ih =>
      rw [List.toFinset_cons, List.map_cons, List.sum_cons]
      by_cases member : first ∈ rest.toFinset
      · rw [Finset.insert_eq_of_mem member]
        omega
      · rw [Finset.sum_insert member]
        omega

theorem outflow_singleton_le {net : Network} (formed : net.WellFormed) (node : Nat) :
    net.outflow {node} ≤ net.supply node := by
  let leaving := net.leaving.getD node []
  have bound := sum_toFinset_le (fun edge => (net.capacity edge).toNat) leaving
  have listed : ∑ edge ∈ leaving.toFinset, net.capacity edge ≤ net.supply node := by
    calc ∑ edge ∈ leaving.toFinset, net.capacity edge
        = ((∑ edge ∈ leaving.toFinset, (net.capacity edge).toNat : Nat) : Int) := by
          rw [Nat.cast_sum]
          refine Finset.sum_congr rfl fun edge _ => ?_
          rw [Int.toNat_of_nonneg (formed.capacities edge)]
      _ ≤ net.supply node := by exact_mod_cast bound
  refine le_trans ?_ listed
  rw [outflow, ← Finset.sum_filter]
  refine Finset.sum_le_sum_of_subset_of_nonneg (fun edge member => ?_)
    fun edge _ _ => formed.capacities edge
  obtain ⟨inside, leaves, -⟩ := Finset.mem_filter.1 member
  rw [List.mem_toFinset]
  exact (formed.leaving node edge).2 ⟨Finset.mem_range.1 inside, Finset.mem_singleton.1 leaves⟩

/-- The total that is found is what leaves every set that separates the source from the sink, and one
    of these sets has no capacity left. -/
theorem raises_maxFlow {net : Network} (formed : net.WellFormed) (inside : source < net.nodes)
    (distinct : source ≠ sink) :
    Raises source sink 0 net (net.maxFlow source sink) ∧
      ∃ set, source ∈ set ∧ sink ∉ set ∧ (net.maxFlow source sink).2.outflow set = 0 := by
  have few : net.outflow {source} < (net.supply source + 1 : Nat) := by
    have := outflow_singleton_le formed source
    omega
  exact raises_runPhases distinct (net.supply source) (net.supply source + 1) 0 net formed inside few

end StatBounds.Network
