import StatBounds.Proofs.Transport.MaxFlow

/-! # Runs of the search for a maximum flow

A run labels the nodes, searches for paths along the labels until a search sends nothing, and labels the nodes again. It
stops when the sink has no label. Its steps do not count anything: the budgets that bound the loops and the recursion
never cut them short, because each search but the last one of a phase takes a unit from the source, and each step of a
path leads one level further.
-/

namespace StatBounds.Network

namespace Search

variable {levels : Levels} {sink : Nat}

/-- The search at the start of a phase: all edges are pending. -/
def fresh (net : Network) : Search where
  net := net
  pending := net.leaving

/-- One search for a path from the source. -/
def attempt (levels : Levels) (source sink : Nat) (search : Search) : Int × Search :=
  augment levels sink search.net.nodes 0 source unlimited search

/-! ## The depth of the recursion -/

theorem label_of_admits {search : Search} {depth edge : Nat} (admitted : search.admits levels depth edge = true) :
    label levels (search.net.head edge) = some (depth + 1) := by
  rcases lt_or_ge edge search.net.edges.size with inside | outside
  · exact ((admits_iff inside).1 admitted).2
  · simp [admits, Array.getElem?_eq_none outside] at admitted

/-- Paths are only continued from nodes of the next level. -/
theorem tryEdges_congr {depth node : Nat} {limit : Int} {descend other : Nat → Int → Search → Int × Search}
    (same : ∀ target, label levels target = some (depth + 1) → descend target = other target) (edges : List Nat)
    (search : Search) :
    tryEdges levels depth node limit descend edges search = tryEdges levels depth node limit other edges search := by
  induction edges generalizing search with
  | nil => rfl
  | cons edge rest ih =>
      rw [tryEdges_cons, tryEdges_cons]
      split_ifs with admitted
      · rw [same _ (label_of_admits admitted)]
        dsimp only
        split_ifs
        · rfl
        · exact ih _
      · exact ih search

/-- A budget for the steps of a path that reaches beyond the last level is never used up. -/
theorem augment_eq_of_enough {bound : Nat} (shallow : ∀ node d, label levels node = some d → d < bound) (steps : Nat) :
    ∀ (others depth node : Nat) (limit : Int) (search : Search), label levels node = some depth →
      bound ≤ depth + steps → bound ≤ depth + others →
      augment levels sink steps depth node limit search = augment levels sink others depth node limit search := by
  induction steps with
  | zero =>
      intro others depth node limit search labelled enough _
      have := shallow node depth labelled
      omega
  | succ steps ih =>
      intro others depth node limit search labelled enough enough'
      cases others with
      | zero =>
          have := shallow node depth labelled
          omega
      | succ others =>
          rw [augment, augment]
          split_ifs
          · rfl
          · refine tryEdges_congr (fun target further => ?_) _ _
            funext below after
            exact ih others (depth + 1) target below after further (by omega) (by omega)

end Search

open Search (fresh attempt augment augmentAll unlimited)

/-! ## The states of a run -/

/-- The states of a run between two searches: what has been sent, the labels of the phase, and the search so far. A
    search that sends something is followed by another one along the same labels, one that sends nothing by a new
    phase. -/
inductive Visits (net : Network) (source sink : Nat) : Int → Levels → Search → Prop
  | start : Visits net source sink 0 (net.levels source) (fresh net)
  | sent {total : Int} {levels : Levels} {search : Search} : Visits net source sink total levels search →
      label levels sink ≠ none → (attempt levels source sink search).1 ≠ 0 →
      Visits net source sink (total + (attempt levels source sink search).1) levels
        (attempt levels source sink search).2
  | exhausted {total : Int} {levels : Levels} {search : Search} : Visits net source sink total levels search →
      label levels sink ≠ none → (attempt levels source sink search).1 = 0 →
      Visits net source sink total ((attempt levels source sink search).2.net.levels source)
        (fresh (attempt levels source sink search).2.net)

variable {net : Network} {source sink : Nat}

/-- What holds between two searches of a run. -/
structure Underway (net : Network) (source sink : Nat) (total : Int) (levels : Levels) (search : Search) : Prop where
  ready : search.Ready
  start : label levels source = some 0
  shallow : ∀ node d, label levels node = some d → d < search.net.nodes
  raises : Raises source sink 0 net (total, search.net)

theorem underway_fresh {total : Int} {after : Network} (inside : source < after.nodes)
    (raises : Raises source sink 0 net (total, after)) :
    Underway net source sink total (after.levels source) (fresh after) := by
  have levelled := levelled_levels raises.formed inside
  exact ⟨Search.ready_start raises.formed, levelled.start, fun _ _ labelled => levelled.lt_nodes labelled, raises⟩

/-- A search raises the total by what it sends. -/
theorem Underway.attempt {total : Int} {levels : Levels} {search : Search}
    (underway : Underway net source sink total levels search) :
    Underway net source sink (total + (attempt levels source sink search).1) levels
      (attempt levels source sink search).2 := by
  have sends : Search.Sends levels sink 0 source unlimited search (Search.attempt levels source sink search) :=
    Search.sends_augment _ _ _ _ search underway.ready (by decide) underway.start
  refine ⟨sends.ready, underway.start, ?_, underway.raises.trans (sends.raises total)⟩
  rw [← sends.shape.nodes]
  exact underway.shallow

theorem Visits.underway (formed : net.WellFormed) (inside : source < net.nodes) {total : Int} {levels : Levels}
    {search : Search} (visits : Visits net source sink total levels search) :
    Underway net source sink total levels search := by
  induction visits with
  | start => exact underway_fresh inside (.refl 0 formed)
  | sent _ _ _ before => exact before.attempt
  | exhausted _ _ nothing before =>
      have after := before.attempt.raises
      rw [nothing, add_zero] at after
      exact underway_fresh (after.shape.nodes ▸ inside) after

theorem Underway.outflow_source {total : Int} {levels : Levels} {search : Search}
    (underway : Underway net source sink total levels search) (distinct : source ≠ sink) :
    search.net.outflow {source} = net.outflow {source} - total := by
  have left := underway.raises.outflow {source}
  simpa [distinct.symm] using left

/-! ## The end of a run -/

section Ends

variable (formed : net.WellFormed) (inside : source < net.nodes) (distinct : source ≠ sink)

include formed inside distinct

/-- A phase goes on until a search sends nothing, if its budget exceeds what can still leave the source. -/
theorem visits_augmentAll {levels : Levels} (labelled : label levels sink ≠ none) (paths : Nat) :
    ∀ (total : Int) (search : Search), Visits net source sink total levels search →
      search.net.outflow {source} < paths →
      let result := augmentAll levels source sink paths total search
      Visits net source sink result.1 (result.2.net.levels source) (fresh result.2.net) := by
  induction paths with
  | zero =>
      intro total search visits few
      have := outflow_nonneg (visits.underway formed inside).raises.formed {source}
      dsimp only at this
      omega
  | succ paths ih =>
      intro total search visits few
      have before := visits.underway formed inside
      have sends : Search.Sends levels sink 0 source unlimited search (attempt levels source sink search) :=
        Search.sends_augment _ _ _ _ search before.ready (by decide) before.start
      have unfolded : augmentAll levels source sink (paths + 1) total search =
          if (attempt levels source sink search).1 = 0 then (total, (attempt levels source sink search).2)
          else augmentAll levels source sink paths (total + (attempt levels source sink search).1)
            (attempt levels source sink search).2 := rfl
      rw [unfolded]
      split_ifs with nothing
      · exact visits.exhausted labelled nothing
      · refine ih _ _ (visits.sent labelled nothing) ?_
        have less := before.attempt.outflow_source distinct
        have := before.outflow_source distinct
        have := sends.nonneg
        omega

/-- The run goes on until the sink has no label, if the budgets exceed what can still leave the source. -/
theorem visits_runPhases (paths phases : Nat) :
    ∀ (total : Int) (current : Network), Visits net source sink total (current.levels source) (fresh current) →
      current.outflow {source} < phases → current.outflow {source} < paths + 1 →
      let result := runPhases source sink (paths + 1) phases total current
      Visits net source sink result.1 (result.2.levels source) (fresh result.2) ∧
        label (result.2.levels source) sink = none := by
  induction phases with
  | zero =>
      intro total current visits few _
      have := outflow_nonneg (visits.underway formed inside).raises.formed {source}
      dsimp only [fresh] at this
      omega
  | succ phases ih =>
      intro total current visits few fewer
      have before := visits.underway formed inside
      have insideCurrent : source < current.nodes := before.raises.shape.nodes ▸ inside
      rw [runPhases]
      split
      · rename_i unreached
        exact ⟨visits, unreached⟩
      · rename_i d reached
        have some : label (current.levels source) sink ≠ none := by
          rw [label, reached]
          simp
        have levelled := levelled_levels before.raises.formed insideCurrent
        have more := Search.lt_augmentAll before.raises.formed levelled.toRooted reached paths total
        have after := visits_augmentAll formed inside distinct some (paths + 1) total (fresh current) visits
          (by exact_mod_cast fewer)
        have left := (after.underway formed inside).outflow_source distinct
        have right := before.outflow_source distinct
        dsimp only [fresh] at after left right more ⊢
        exact ih _ _ after (by omega) (by omega)

theorem visits_maxFlow :
    let result := net.maxFlow source sink
    Visits net source sink result.1 (result.2.levels source) (fresh result.2) ∧
      label (result.2.levels source) sink = none := by
  have few := outflow_singleton_le formed source
  exact visits_runPhases formed inside distinct (net.supply source) (net.supply source + 1) 0 net .start
    (by push_cast; omega) (by omega)

end Ends

end StatBounds.Network
