import StatBounds.Expr.Basic
import StatBounds.Interval.Arithmetic

/-!
# Expressions as arenas of nodes

For propagation a tree is laid out as an array of nodes that name their children by position. Children
come before their parents and the root comes last, so one pass from left to right evaluates the tree
and one from right to left visits each parent before its children.
-/

namespace StatBounds

/-- One operation of an expression, with its operands as positions in the arena. -/
inductive Node where
  | var (v : Var)
  | const (value : Interval)
  | neg (a : Nat)
  | add (a b : Nat)
  | sub (a b : Nat)
  | mul (a b : Nat)
  | div (a b : Nat)
  | sqr (a : Nat)
  | sqrt (a : Nat)
  | sum (terms : List Nat)
  deriving DecidableEq

namespace Expr

mutual

/-- Append the nodes of an expression to an arena; its root is the last of them. -/
def layOut : Expr → Array Node → Array Node
  | var v, arena => arena.push (.var v)
  | const c, arena => arena.push (.const (.point c))
  | neg a, arena => layOutUnary .neg (a.layOut arena)
  | sqr a, arena => layOutUnary .sqr (a.layOut arena)
  | sqrt a, arena => layOutUnary .sqrt (a.layOut arena)
  | add a b, arena => layOutBinary .add (a.layOut arena) fun left => b.layOut left
  | sub a b, arena => layOutBinary .sub (a.layOut arena) fun left => b.layOut left
  | mul a b, arena => layOutBinary .mul (a.layOut arena) fun left => b.layOut left
  | div a b, arena => layOutBinary .div (a.layOut arena) fun left => b.layOut left
  | sum terms, arena =>
      let (roots, arena) := layOutAll terms arena
      arena.push (.sum roots)
where
  /-- Append a node over the root that was laid out last. -/
  layOutUnary (node : Nat → Node) (arena : Array Node) : Array Node :=
    arena.push (node (arena.size - 1))
  /-- Append a node over the root of the left operand and the root of the right one after it. -/
  layOutBinary (node : Nat → Nat → Node) (left : Array Node)
      (right : Array Node → Array Node) : Array Node :=
    let arena := right left
    arena.push (node (left.size - 1) (arena.size - 1))

def layOutAll : List Expr → Array Node → List Nat × Array Node
  | [], arena => ([], arena)
  | e :: rest, arena =>
      let arena := e.layOut arena
      let root := arena.size - 1
      let (roots, arena) := layOutAll rest arena
      (root :: roots, arena)

end

def arena (e : Expr) : Array Node :=
  e.layOut #[]

end Expr

/-- The interval at a position. Positions beyond the end, which no arena names, tell nothing. -/
def valueAt (values : Array Interval) (position : Nat) : Interval :=
  values.getD position .entire

namespace Node

/-- The interval of a node, from the domains of the variables and the intervals before it. -/
def evaluate (bounds : Var → Interval) (values : Array Interval) : Node → Interval
  | var v => bounds v
  | const value => value
  | neg a => -valueAt values a
  | add a b => valueAt values a + valueAt values b
  | sub a b => valueAt values a - valueAt values b
  | mul a b => valueAt values a * valueAt values b
  | div a b => valueAt values a / valueAt values b
  | sqr a => (valueAt values a).sqr
  | sqrt a => (valueAt values a).sqrt
  | sum terms => Interval.sum (terms.map (valueAt values))

end Node

/-- The interval of every node of an arena. -/
def evaluateArena (bounds : Var → Interval) (arena : Array Node) : Array Interval :=
  arena.foldl (fun values node => values.push (node.evaluate bounds values)) #[]

/-- Intersect the interval at a position, or fail if nothing remains. -/
def project? (values : Array Interval) (position : Nat) (onto : Interval) : Option (Array Interval) :=
  let meet := (valueAt values position).intersect onto
  if meet.isEmpty then none else some (values.setIfInBounds position meet)

namespace Node

/-- Narrow the intervals of a node's children to what can produce the value `v` of the node. A second
    child sees the first one already narrowed. -/
def projectChildren? (values : Array Interval) (v : Interval) : Node → Option (Array Interval)
  | var _ | const _ => some values
  | neg a => project? values a (-v)
  | add a b => do
      let values ← project? values a (v - valueAt values b)
      project? values b (v - valueAt values a)
  | sub a b => do
      let values ← project? values a (v + valueAt values b)
      project? values b (valueAt values a - v)
  | mul a b => do
      let values ← project? values a (v / valueAt values b)
      project? values b (v / valueAt values a)
  | div a b => do
      let values ← project? values a (v * valueAt values b)
      project? values b (valueAt values a / v)
  | sqr a => project? values a ((valueAt values a).sqrPreimage v)
  | sqrt a => project? values a (v.intersect .nonNegative).sqr
  | sum terms =>
      let others := Interval.sumsOfOthers (terms.map (valueAt values))
      (terms.zip others).foldlM (fun values (term, rest) => project? values term (v - rest)) values

end Node

/-- Project the nodes before a position onto their children, from right to left. -/
def projectBefore? (arena : Array Node) : Nat → Array Interval → Option (Array Interval)
  | 0, values => some values
  | position + 1, values => do
      let values ← match arena[position]? with
        | some node => node.projectChildren? values (valueAt values position)
        | none => some values
      projectBefore? arena position values

end StatBounds
