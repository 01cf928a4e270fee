/-!
# Flow networks and maximum flow

A residual network keeps every edge next to its reverse: edge `e` and edge `e ^^^ 1` belong together,
and what flows along one of them can flow back along the other. Flow is increased phase by phase along
shortest paths: a phase labels the nodes with their distance from the source, and then follows edges
that lead one step further, in the order in which they were added, until the sink is out of reach.
-/

namespace StatBounds

-- Powers of integers and sums of lists are those of the core library.
attribute [local instance (2000)] instPowNat Zero.ofOfNat0

/-- An edge of a residual network: where it leads and how much it can still carry. -/
structure Edge where
  target : Nat
  capacity : Int
  deriving Repr, DecidableEq

/-- A residual network. -/
structure Network where
  /-- The edges that leave each node, in the order in which they were added. -/
  leaving : Array (List Nat)
  edges : Array Edge
  deriving Repr, DecidableEq

namespace Network

/-- A network of nodes without edges. -/
def ofNodes (count : Nat) : Network where
  leaving := Array.replicate count []
  edges := #[]

def nodes (net : Network) : Nat :=
  net.leaving.size

/-- Add an edge and its empty reverse. The new edge has the number `net.edges.size`. -/
def addEdge (net : Network) (source target : Nat) (capacity : Int) : Network :=
  let number := net.edges.size
  { edges := (net.edges.push { target, capacity }).push { target := source, capacity := 0 }
    leaving := (net.leaving.modify source (· ++ [number])).modify target (· ++ [number + 1]) }

def capacity (net : Network) (edge : Nat) : Int :=
  match net.edges[edge]? with
  | some e => e.capacity
  | none => 0

/-- Move flow along an edge, from its capacity to that of its reverse. -/
def push (net : Network) (edge : Nat) (amount : Int) : Network :=
  { net with
    edges := (net.edges.modify edge fun e => { e with capacity := e.capacity - amount }).modify
      (edge ^^^ 1) fun e => { e with capacity := e.capacity + amount } }

/-- The nodes that an edge with capacity left leads to from a given node. -/
def successors (net : Network) (node : Nat) : List Nat :=
  (net.leaving.getD node []).filterMap fun edge =>
    match net.edges[edge]? with
    | some e => if e.capacity > 0 then some e.target else none
    | none => none

/-- The distance of each node from the source, as far as it is known. -/
abbrev Levels := Array (Option Nat)

/-- Label a node that has no label yet, and remember it as newly labelled. -/
def reach (depth : Nat) (state : Levels × List Nat) (node : Nat) : Levels × List Nat :=
  match state.1.getD node (some 0) with
  | some _ => state
  | none => (state.1.set! node (some depth), node :: state.2)

/-- Label the nodes round by round, each round with the successors of the nodes labelled in the round
    before. There are no more rounds with new labels than nodes. -/
def spread (net : Network) : (rounds depth : Nat) → (frontier : List Nat) → Levels → Levels
  | 0, _, _, levels => levels
  | rounds + 1, depth, frontier, levels =>
      let (levels, reached) :=
        (frontier.flatMap net.successors).foldl (reach (depth + 1)) (levels, [])
      if reached.isEmpty then levels else spread net rounds (depth + 1) reached levels

/-- The distance of each node from the source along edges with capacity left. -/
def levels (net : Network) (source : Nat) : Levels :=
  spread net net.nodes 0 [source] ((Array.replicate net.nodes none).set! source (some 0))

/-- A search for augmenting paths: the network so far, and for each node the edges that may still
    lead to the sink in this phase. -/
structure Search where
  net : Network
  pending : Array (List Nat)

namespace Search

/-- Whether an edge from a node of distance `depth` has capacity left and leads one step further. -/
def admits (search : Search) (levels : Levels) (depth edge : Nat) : Bool :=
  match search.net.edges[edge]? with
  | some e => e.capacity > 0 && levels.getD e.target none == some (depth + 1)
  | none => false

/-- Try the edges of a node in order. The first one along which something can be sent stays pending;
    those before it are exhausted. `descend` continues the path from the node that an edge leads to. -/
def tryEdges (levels : Levels) (depth node : Nat) (limit : Int)
    (descend : Nat → Int → Search → Int × Search) : List Nat → Search → Int × Search
  | [], search => (0, { search with pending := search.pending.set! node [] })
  | edge :: rest, search =>
      if search.admits levels depth edge then
        let target := ((search.net.edges[edge]?).map Edge.target).getD 0
        let (sent, search) := descend target (min limit (search.net.capacity edge)) search
        if sent > 0 then
          (sent, { net := search.net.push edge sent
                   pending := search.pending.set! node (edge :: rest) })
        else
          tryEdges levels depth node limit descend rest search
      else
        tryEdges levels depth node limit descend rest search

/-- Send flow of at most `limit` from a node to the sink along one path, and tell how much was sent.
    Distances increase along the path, so it visits no more than `nodes` nodes. -/
def augment (levels : Levels) (sink : Nat) :
    (nodes depth node : Nat) → (limit : Int) → Search → Int × Search
  | 0, _, _, _, search => (0, search)
  | nodes + 1, depth, node, limit, search =>
      if node = sink then
        (limit, search)
      else
        tryEdges levels depth node limit (augment levels sink nodes (depth + 1))
          (search.pending.getD node []) search

/-- More than any path can carry. -/
def unlimited : Int := 2 ^ (63 : Nat) - 1

/-- Send flow from the source until the sink cannot be reached any more in this phase, and add up what
    was sent. Each path carries at least one unit, so `paths` of them suffice if no more than `paths`
    units leave the source. -/
def augmentAll (levels : Levels) (source sink : Nat) :
    (paths : Nat) → (total : Int) → Search → Int × Search
  | 0, total, search => (total, search)
  | paths + 1, total, search =>
      let (sent, search) :=
        augment levels sink search.net.nodes 0 source unlimited search
      if sent = 0 then
        (total, search)
      else
        augmentAll levels source sink paths (total + sent) search

end Search

/-- Run phases until the sink is out of reach, and add up what was sent. A phase sends at least one
    unit, so `phases` of them suffice if fewer than `phases` units leave the source. -/
def runPhases (source sink paths : Nat) : (phases : Nat) → (total : Int) → Network → Int × Network
  | 0, total, net => (total, net)
  | phases + 1, total, net =>
      let levels := net.levels source
      match levels.getD sink none with
      | none => (total, net)
      | some _ =>
          let (total, search) :=
            Search.augmentAll levels source sink paths total { net, pending := net.leaving }
          runPhases source sink paths phases total search.net

def supply (net : Network) (node : Nat) : Nat :=
  ((net.leaving.getD node []).map fun edge => (net.capacity edge).toNat).sum

/-- The value of a maximum flow from the source to the sink, with the residual network that it leaves.
    No more can flow than the edges of the source carry. -/
def maxFlow (net : Network) (source sink : Nat) : Int × Network :=
  let steps := net.supply source + 1
  runPhases source sink steps steps 0 net

end Network

end StatBounds
