import Mathlib
import StatBounds.Transport.Network

/-! # Residual networks

Every edge of a well-formed network leaves the node that its reverse leads to. What can leave a set of
nodes across its border is the capacity of the set; sending flow along an edge takes it from the sets
that the edge leaves and gives it to those that it enters, so sending flow along a path only touches
the sets that separate its ends.
-/

namespace StatBounds.Network

def head (net : Network) (edge : Nat) : Nat :=
  ((net.edges[edge]?).map Edge.target).getD 0

def tail (net : Network) (edge : Nat) : Nat :=
  net.head (edge ^^^ 1)

/-! ## Reverse edges -/

theorem reverse_reverse (edge : Nat) : (edge ^^^ 1) ^^^ 1 = edge := by
  rw [Nat.xor_assoc, Nat.xor_self, Nat.xor_zero]

theorem reverse_ne (edge : Nat) : edge ^^^ 1 ≠ edge := by
  intro same
  have : edge ^^^ (edge ^^^ 1) = edge ^^^ edge := congrArg (edge ^^^ ·) same
  rw [← Nat.xor_assoc, Nat.xor_self, Nat.zero_xor] at this
  exact absurd this (by decide)

theorem reverse_eq_comm {first second : Nat} : first = second ^^^ 1 ↔ first ^^^ 1 = second := by
  constructor
  · rintro rfl
    exact reverse_reverse second
  · rintro rfl
    exact (reverse_reverse first).symm

@[simp] theorem tail_reverse (net : Network) (edge : Nat) : net.tail (edge ^^^ 1) = net.head edge := by
  rw [tail, reverse_reverse]

/-! ## Well-formed networks -/

/-- Edges come in pairs, lead to nodes, are listed at the nodes that they leave, and never have a
    negative capacity. -/
structure WellFormed (net : Network) : Prop where
  paired : ∀ edge, edge < net.edges.size → edge ^^^ 1 < net.edges.size
  heads : ∀ edge, edge < net.edges.size → net.head edge < net.nodes
  leaving : ∀ node edge, edge ∈ net.leaving.getD node [] ↔
    edge < net.edges.size ∧ net.tail edge = node
  capacities : ∀ edge, 0 ≤ net.capacity edge

/-- Two networks that differ at most in how the capacity of an edge and its reverse is divided between
    the two. -/
structure SameShape (net other : Network) : Prop where
  leaving : net.leaving = other.leaving
  size : net.edges.size = other.edges.size
  head : ∀ edge, net.head edge = other.head edge
  pairs : ∀ edge, edge < net.edges.size →
    net.capacity edge + net.capacity (edge ^^^ 1) =
      other.capacity edge + other.capacity (edge ^^^ 1)

namespace SameShape

theorem refl (net : Network) : SameShape net net := ⟨rfl, rfl, fun _ => rfl, fun _ _ => rfl⟩

theorem trans {first second third : Network} (left : SameShape first second)
    (right : SameShape second third) : SameShape first third :=
  ⟨left.leaving.trans right.leaving, left.size.trans right.size,
    fun edge => (left.head edge).trans (right.head edge),
    fun edge inside => (left.pairs edge inside).trans (right.pairs edge (left.size ▸ inside))⟩

theorem tail {net other : Network} (same : SameShape net other) (edge : Nat) :
    net.tail edge = other.tail edge :=
  same.head (edge ^^^ 1)

theorem nodes {net other : Network} (same : SameShape net other) : net.nodes = other.nodes := by
  rw [Network.nodes, Network.nodes, same.leaving]

theorem formed {net other : Network} (same : SameShape net other) (formed : net.WellFormed)
    (capacities : ∀ edge, 0 ≤ other.capacity edge) : other.WellFormed where
  paired := by
    rw [← same.size]
    exact formed.paired
  heads := by
    intro edge inside
    rw [← same.head, ← same.nodes]
    exact formed.heads edge (same.size ▸ inside)
  leaving := by
    intro node edge
    rw [← same.leaving, ← same.size, ← same.tail]
    exact formed.leaving node edge
  capacities := capacities

end SameShape

/-! ## Pushing flow along an edge -/

theorem getElem?_push (net : Network) (edge : Nat) (amount : Int) (other : Nat) :
    (net.push edge amount).edges[other]? = (net.edges[other]?).map fun e =>
      { e with capacity := e.capacity - (if other = edge then amount else 0) +
          (if other = edge ^^^ 1 then amount else 0) } := by
  have apart := reverse_ne edge
  simp only [push, Array.getElem?_modify]
  by_cases forward : other = edge
  · subst forward
    simp [apart, apart.symm]
  · by_cases backward : other = edge ^^^ 1
    · subst backward
      simp [apart, apart.symm]
    · simp [forward, backward, Ne.symm forward, Ne.symm backward]

theorem capacity_eq (net : Network) (edge : Nat) :
    net.capacity edge = ((net.edges[edge]?).map Edge.capacity).getD 0 := by
  unfold capacity
  cases net.edges[edge]? <;> rfl

theorem capacity_of_size_le (net : Network) {edge : Nat} (outside : net.edges.size ≤ edge) :
    net.capacity edge = 0 := by
  rw [capacity_eq, Array.getElem?_eq_none outside]
  rfl

theorem capacity_push (net : Network) (edge : Nat) (amount : Int) {other : Nat}
    (inside : other < net.edges.size) :
    (net.push edge amount).capacity other =
      net.capacity other - (if other = edge then amount else 0) +
        (if other = edge ^^^ 1 then amount else 0) := by
  rw [capacity_eq, capacity_eq, getElem?_push, Array.getElem?_eq_getElem inside]
  rfl

theorem sameShape_push {net : Network} (formed : net.WellFormed) (edge : Nat) (amount : Int) :
    SameShape net (net.push edge amount) where
  leaving := rfl
  size := by simp [push]
  head := by
    intro other
    rw [head, head, getElem?_push, Option.map_map]
    rfl
  pairs := by
    intro other inside
    rw [capacity_push net edge amount inside, capacity_push net edge amount (formed.paired other inside)]
    have swapped : other ^^^ 1 = edge ↔ other = edge ^^^ 1 := reverse_eq_comm.symm
    have kept : other ^^^ 1 = edge ^^^ 1 ↔ other = edge := by
      rw [reverse_eq_comm, reverse_reverse]
    simp only [swapped, kept]
    ring

/-! ## The capacity of a set of nodes -/

def outflow (net : Network) (set : Finset Nat) : Int :=
  ∑ edge ∈ Finset.range net.edges.size,
    if net.tail edge ∈ set ∧ net.head edge ∉ set then net.capacity edge else 0

theorem outflow_nonneg {net : Network} (formed : net.WellFormed) (set : Finset Nat) :
    0 ≤ net.outflow set := by
  refine Finset.sum_nonneg fun edge _ => ?_
  split_ifs
  · exact formed.capacities edge
  · exact le_rfl

/-- Flow along an edge is taken from a set that holds its tail, and given to one that holds its
    head. -/
theorem outflow_push {net : Network} (formed : net.WellFormed) {edge : Nat}
    (inside : edge < net.edges.size) (amount : Int) (set : Finset Nat) :
    (net.push edge amount).outflow set =
      net.outflow set - (if net.tail edge ∈ set then amount else 0) +
        (if net.head edge ∈ set then amount else 0) := by
  have shape := sameShape_push formed edge amount
  have reversed := formed.paired edge inside
  have term (other : Nat) (member : other ∈ Finset.range net.edges.size) :
      (if (net.push edge amount).tail other ∈ set ∧ (net.push edge amount).head other ∉ set
        then (net.push edge amount).capacity other else 0) =
      (if net.tail other ∈ set ∧ net.head other ∉ set then net.capacity other else 0) -
        (if other = edge then if net.tail edge ∈ set ∧ net.head edge ∉ set then amount else 0 else 0) +
        (if other = edge ^^^ 1 then
          if net.head edge ∈ set ∧ net.tail edge ∉ set then amount else 0 else 0) := by
    rw [← shape.tail, ← shape.head, capacity_push net edge amount (Finset.mem_range.1 member)]
    by_cases forward : other = edge
    · subst forward
      simp only [(reverse_ne other).symm, if_true, if_false]
      split_ifs <;> ring
    · by_cases backward : other = edge ^^^ 1
      · subst backward
        simp only [reverse_ne edge, if_true, if_false, tail_reverse]
        rw [show net.head (edge ^^^ 1) = net.tail edge from rfl]
        split_ifs <;> ring
      · simp only [forward, backward, if_false]
        split_ifs <;> ring
  rw [outflow, ← shape.size, Finset.sum_congr rfl term, Finset.sum_add_distrib,
    Finset.sum_sub_distrib, Finset.sum_ite_eq', Finset.sum_ite_eq', if_pos (Finset.mem_range.2 inside),
    if_pos (Finset.mem_range.2 reversed), outflow]
  by_cases leaves : net.tail edge ∈ set <;> by_cases enters : net.head edge ∈ set <;>
    simp [leaves, enters]

end StatBounds.Network
