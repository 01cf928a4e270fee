import StatBounds.Error
import StatBounds.Transport.Network

/-!
# Transportation problems

Items are to be placed in bins. Each item goes to one of the bins it is allowed in, and each bin takes
a number of items within its bounds. Whether a placement exists is decided as a flow with demands;
which items may go where, and how many a bin may take, is decided by asking for placements of changed
problems.
-/

namespace StatBounds

-- Powers of integers and sums of lists are those of the core library.
attribute [local instance (2000)] instPowNat Zero.ofOfNat0

/-- Items with the bins they may go to, and bins with the least and the greatest number of items that
    they take. -/
structure Transportation where
  allowed : List (List Nat)
  bounds : List (Nat × Nat)
  inRange : ∀ bins ∈ allowed, ∀ b ∈ bins, b < bounds.length
  deriving DecidableEq

namespace Transportation

/-- The problem of given lists, where every allowed bin has to exist. -/
def ofLists (allowed : List (List Nat)) (bounds : List (Nat × Nat)) : Except Fault Transportation :=
  if inRange : ∀ bins ∈ allowed, ∀ b ∈ bins, b < bounds.length then
    .ok { allowed, bounds, inRange }
  else
    let foreign := allowed.flatten.find? (bounds.length ≤ ·)
    .error (.outOfRange (foreign.getD 0) bounds.length)

def items (t : Transportation) : Nat :=
  t.allowed.length

def bins (t : Transportation) : Nat :=
  t.bounds.length

/-- The sum of counts, which has to fit in 64 bits. -/
def countSum (counts : List Nat) : Except Fault Nat :=
  if counts.sum < 2 ^ (64 : Nat) then .ok counts.sum else .error .overflow

/-- The capacity of a bin beyond its least count. It is kept in a signed 64-bit word, where a width of
    `2 ^ 63` or more turns negative and lets nothing pass. -/
def slack (lo hi : Nat) : Int :=
  Int.bmod (hi - lo) (2 ^ (64 : Nat))

/-- The nodes: a source, the items, the bins, a sink, and a second source and sink for demands. -/
structure Layout where
  items : Nat
  bins : Nat

namespace Layout

def source (_ : Layout) : Nat := 0

def item (_ : Layout) (i : Nat) : Nat := 1 + i

def bin (l : Layout) (b : Nat) : Nat := 1 + l.items + b

def sink (l : Layout) : Nat := 1 + l.items + l.bins

def demandSource (l : Layout) : Nat := l.sink + 1

def demandSink (l : Layout) : Nat := l.sink + 2

def nodes (l : Layout) : Nat := l.sink + 3

/-- Every item receives exactly one unit: it is demanded at the item and owed by the source. -/
def addSupplies (l : Layout) (net : Network) : Network :=
  ((List.range l.items).foldl (fun net i => net.addEdge l.demandSource (l.item i) 1) net).addEdge
    l.source l.demandSink l.items

/-- Let an item go to each of its bins, and list the edge for each of them. -/
def addChoices (l : Layout) (i : Nat) : List Nat → Network → List (Nat × Nat) × Network
  | [], net => ([], net)
  | b :: rest, net =>
      let (choices, after) := addChoices l i rest (net.addEdge (l.item i) (l.bin b) 1)
      ((net.edges.size, b) :: choices, after)

/-- Let every item from number `i` on go to each of its bins, and list the edges item by item. -/
def addItems (l : Layout) : (i : Nat) → List (List Nat) → Network →
    List (List (Nat × Nat)) × Network
  | _, [], net => ([], net)
  | i, bins :: rest, net =>
      let (choices, net) := l.addChoices i bins net
      let (others, net) := l.addItems (i + 1) rest net
      (choices :: others, net)

/-- Let every bin from number `b` on pass its items to the sink. The least count is demanded. -/
def addBins (l : Layout) : (b : Nat) → List (Nat × Nat) → Network → Network
  | _, [], net => net
  | b, (lo, hi) :: rest, net =>
      let net := net.addEdge (l.bin b) l.sink (slack lo hi)
      let net :=
        if lo > 0 then
          (net.addEdge l.demandSource l.sink lo).addEdge (l.bin b) l.demandSink lo
        else
          net
      l.addBins (b + 1) rest net

end Layout

/-- The network of a problem, with the edges of each item and the bins they lead to. -/
def network (t : Transportation) : List (List (Nat × Nat)) × Network :=
  let layout : Layout := { items := t.items, bins := t.bins }
  let net := layout.addSupplies (.ofNodes layout.nodes)
  let (choices, net) := layout.addItems 0 t.allowed net
  let net := layout.addBins 0 t.bounds net
  (choices, net.addEdge layout.sink layout.source t.items)

/-- A placement found by maximum flow, for bounds whose least counts sum up to `lower`: every demand
    has to be met, and each item goes along its first saturated edge. -/
def place? (t : Transportation) (lower : Nat) : Option (List Nat) :=
  let layout : Layout := { items := t.items, bins := t.bins }
  let (choices, net) := t.network
  let (flow, residual) := net.maxFlow layout.demandSource layout.demandSink
  if flow = t.items + lower then
    choices.mapM fun edges =>
      (edges.find? fun (edge, _) => residual.capacity edge == 0).map Prod.snd
  else
    none

/-- The bin of each item in some placement within the bounds, if there is one. -/
def solve (t : Transportation) : Except Fault (Option (List Nat)) := do
  if t.bounds.any fun (lo, hi) => lo > hi then
    return none
  let lower ← countSum (t.bounds.map Prod.fst)
  let upper ← countSum (t.bounds.map Prod.snd)
  if lower > t.items || upper < t.items then
    return none
  return t.place? lower

/-- Whether some placement is within the bounds. -/
def isFeasible (t : Transportation) : Except Fault Bool := do
  return (← t.solve).isSome

def withBounds (t : Transportation) (bin : Nat) (bounds : Nat × Nat) : Transportation where
  allowed := t.allowed
  bounds := t.bounds.set bin bounds
  inRange := by simpa using t.inRange

/-- The same problem without one of the items. -/
def without (t : Transportation) (item : Nat) : Transportation where
  allowed := t.allowed.eraseIdx item
  bounds := t.bounds
  inRange := fun bins member => t.inRange bins (List.mem_of_mem_eraseIdx member)

/-- Whether some placement sends an item to a bin: the other items have to find places when one place
    of the bin is taken. -/
def supports (t : Transportation) (item bin : Nat) : Except Fault Bool := do
  let some (lo, hi) := t.bounds[bin]? | throw (.outOfRange bin t.bins)
  if hi = 0 then
    return false
  let some allowed := t.allowed[item]? | throw (.outOfRange item t.items)
  if !allowed.contains bin then
    return false
  ((t.without item).withBounds bin (lo - 1, hi - 1)).isFeasible

/-- The greatest `c` from `a` to `b` with a property that holds of `a` and of all up to the greatest. -/
def greatest (holds : Nat → Except Fault Bool) (a b : Nat) : Except Fault Nat :=
  if a < b then
    if b - a + 1 < 2 ^ (64 : Nat) then do
      let middle := a + (b - a + 1) / 2
      if ← holds middle then greatest holds middle b else greatest holds a (middle - 1)
    else
      .error .overflow
  else
    .ok a
termination_by b - a

/-- The least `c` from `a` to `b` with a property that holds of `b` and of all down to the least. -/
def least (holds : Nat → Except Fault Bool) (a b : Nat) : Except Fault Nat :=
  if a < b then do
    let middle := a + (b - a) / 2
    if ← holds middle then least holds a middle else least holds (middle + 1) b
  else
    .ok a
termination_by b - a

/-- The least and the greatest number of items that a bin takes in a placement, if there is one. Every
    number in between is possible too, so both can be found by bisection. -/
def countRange (t : Transportation) (bin : Nat) : Except Fault (Option (Nat × Nat)) := do
  if !(← t.isFeasible) then
    return none
  let some (lo, hi) := t.bounds[bin]? | throw (.outOfRange bin t.bins)
  let most ← greatest (fun c => (t.withBounds bin (c, hi)).isFeasible) lo hi
  let fewest ← least (fun c => (t.withBounds bin (lo, c)).isFeasible) lo hi
  return some (fewest, most)

end Transportation

end StatBounds
