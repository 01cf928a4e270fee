import StatBounds.Proofs.Propagation.Formulas
import StatBounds.Proofs.Propagation.Monotone
import StatBounds.Proofs.Propagation.SumFormulas

/-! # Linear formulas are monotone

Sums and differences of intervals within others lie within theirs. So the intervals of an arena of such nodes stay
within those that start from larger domains, on the way from the leaves to the root and back. What a linear formula
leaves of smaller domains lies inside what it leaves of larger ones.
-/

namespace StatBounds

variable {values values' : Array Interval} {small big : Variables}

/-- The interval at every position lies within the other one there. -/
structure WithinValues (values values' : Array Interval) : Prop where
  size : values.size = values'.size
  within : ∀ p, (valueAt values p).Within (valueAt values' p)

/-- If the first step does not fail, then neither does the second one, and leaves no less. -/
def FollowsValues (step step' : Option (Array Interval)) : Prop :=
  ∀ after, step = some after → ∃ after', step' = some after' ∧ WithinValues after after'

theorem WithinValues.map (within : WithinValues values values') (terms : List Nat) :
    List.Forall₂ Interval.Within (terms.map (valueAt values)) (terms.map (valueAt values')) := by
  rw [List.forall₂_map_left_iff, List.forall₂_map_right_iff, List.forall₂_same]
  exact fun term _ => within.within term

theorem withinValues_empty : WithinValues #[] #[] :=
  ⟨rfl, fun _ => .refl Interval.proper_entire⟩

theorem WithinValues.push {i j : Interval} (within : WithinValues values values') (last : i.Within j) :
    WithinValues (values.push i) (values'.push j) := by
  refine ⟨by rw [Array.size_push, Array.size_push, within.size], fun p => ?_⟩
  rw [valueAt, valueAt, Array.getD_eq_getD_getElem?, Array.getD_eq_getD_getElem?, Array.getElem?_push,
    Array.getElem?_push, within.size]
  split_ifs
  · exact last
  · rw [← Array.getD_eq_getD_getElem?, ← Array.getD_eq_getD_getElem?]
    exact within.within p

theorem WithinValues.set {i j : Interval} {p : Nat} (within : WithinValues values values') (there : i.Within j) :
    WithinValues (values.setIfInBounds p i) (values'.setIfInBounds p j) := by
  refine ⟨by rw [Array.size_setIfInBounds, Array.size_setIfInBounds, within.size], fun q => ?_⟩
  rw [valueAt, valueAt, Array.getD_eq_getD_getElem?, Array.getD_eq_getD_getElem?, Array.getElem?_setIfInBounds,
    Array.getElem?_setIfInBounds, within.size]
  split_ifs
  · exact there
  · exact .refl Interval.proper_entire
  · rw [← Array.getD_eq_getD_getElem?, ← Array.getD_eq_getD_getElem?]
    exact within.within q

theorem FollowsValues.bind {step step' : Option (Array Interval)}
    {rest rest' : Array Interval → Option (Array Interval)}
    (first : FollowsValues step step')
    (second : ∀ after after', WithinValues after after' → FollowsValues (rest after) (rest' after')) :
    FollowsValues (step >>= rest) (step' >>= rest') := by
  intro last ran
  obtain ⟨after, same, ran⟩ := Option.bind_eq_some_iff.1 ran
  obtain ⟨after', same', within⟩ := first after same
  obtain ⟨last', ran', within'⟩ := second after after' within last ran
  exact ⟨last', Option.bind_eq_some_iff.2 ⟨after', same', ran'⟩, within'⟩

theorem WithinValues.follows (within : WithinValues values values') : FollowsValues (some values) (some values') := by
  rintro _ ⟨⟩
  exact ⟨values', rfl, within⟩

theorem WithinValues.project {p : Nat} {onto onto' : Interval} (within : WithinValues values values')
    (target : onto.Within onto') : FollowsValues (project? values p onto) (project? values' p onto') := by
  have meet := (within.within p).intersect target
  intro after projected
  simp only [project?] at projected ⊢
  split_ifs at projected with none
  rw [meet.notEmpty (Bool.eq_false_iff.2 none)]
  obtain rfl := Option.some.inj projected
  exact ⟨_, rfl, within.set meet⟩

theorem WithinValues.projectAll {v v' : Interval} {parts parts' : List (Nat × Interval)} (root : v.Within v')
    (all : List.Forall₂ (fun part part' => part.1 = part'.1 ∧ part.2.Within part'.2) parts parts')
    (within : WithinValues values values') :
    FollowsValues (parts.foldlM (fun values part => project? values part.1 (v - part.2)) values)
      (parts'.foldlM (fun values part => project? values part.1 (v' - part.2)) values') := by
  induction all generalizing values values' with
  | nil => exact within.follows
  | cons head _ ih =>
      obtain ⟨same, rest⟩ := head
      rw [List.foldlM_cons, List.foldlM_cons, same]
      exact (within.project (root.sub rest)).bind fun _ _ within => ih within

/-! ## Linear nodes -/

/-- The node adds or subtracts its operands, if it has any. -/
def Node.IsLinear : Node → Prop
  | var _ | neg _ | add _ _ | sub _ _ | sum _ => True
  | const i => i.Proper
  | mul _ _ | div _ _ | sqr _ | sqrt _ => False

namespace Node.IsLinear

variable {node : Node} {v v' : Interval} {bounds bounds' : Var → Interval}

theorem evaluate (linear : node.IsLinear) (leaves : ∀ v, (bounds v).Within (bounds' v))
    (within : WithinValues values values') : (node.evaluate bounds values).Within (node.evaluate bounds' values') := by
  cases node with
  | var v => exact leaves v
  | const i => exact .refl linear
  | neg a => exact (within.within a).neg
  | add a b => exact (within.within a).add (within.within b)
  | sub a b => exact (within.within a).sub (within.within b)
  | sum terms => exact Interval.within_sum (within.map terms)
  | mul _ _ | div _ _ | sqr _ | sqrt _ => exact linear.elim

theorem projectChildren (linear : node.IsLinear) (root : v.Within v') (within : WithinValues values values') :
    FollowsValues (node.projectChildren? values v) (node.projectChildren? values' v') := by
  cases node with
  | var _ | const _ => exact within.follows
  | neg a => exact within.project root.neg
  | add a b =>
      exact (within.project (root.sub (within.within b))).bind fun _ _ within =>
        within.project (root.sub (within.within a))
  | sub a b =>
      exact (within.project (root.add (within.within b))).bind fun _ _ within =>
        within.project ((within.within a).sub root)
  | sum terms =>
      refine within.projectAll root ?_
      exact forall₂_zip _ (Interval.within_sumsOfOthers (within.map terms))
  | mul _ _ | div _ _ | sqr _ | sqrt _ => exact linear.elim

end Node.IsLinear

/-! ## Linear formulas -/

namespace Formula

variable {f : Formula} {bounds bounds' : Var → Interval}

/-- All nodes of the formula are linear, and the target is made of numbers. -/
structure IsLinear (f : Formula) : Prop where
  nodes : ∀ node ∈ f.arena, node.IsLinear
  target : f.target.Proper

theorem IsLinear.evaluateArena (linear : f.IsLinear) (leaves : ∀ v, (bounds v).Within (bounds' v)) :
    WithinValues (evaluateArena bounds f.arena) (StatBounds.evaluateArena bounds' f.arena) := by
  have fold (nodes : List Node) (each : ∀ node ∈ nodes, node.IsLinear) {values values' : Array Interval}
      (within : WithinValues values values') :
      WithinValues (nodes.foldl (fun values node => values.push (node.evaluate bounds values)) values)
        (nodes.foldl (fun values node => values.push (node.evaluate bounds' values)) values') := by
    induction nodes generalizing values values' with
    | nil => exact within
    | cons node nodes ih =>
        obtain ⟨head, tail⟩ := List.forall_mem_cons.1 each
        exact ih tail (within.push (head.evaluate leaves within))
  rw [StatBounds.evaluateArena, StatBounds.evaluateArena, ← Array.foldl_toList, ← Array.foldl_toList]
  exact fold _ (fun node member => linear.nodes node (Array.mem_toList_iff.1 member)) withinValues_empty

theorem IsLinear.projectBefore (linear : f.IsLinear) (position : Nat) (within : WithinValues values values') :
    FollowsValues (projectBefore? f.arena position values) (projectBefore? f.arena position values') := by
  induction position generalizing values values' with
  | zero => exact within.follows
  | succ position ih =>
      rw [projectBefore?, projectBefore?]
      cases found : f.arena[position]? with
      | none => exact ih within
      | some node =>
          have children :=
            (linear.nodes node (Array.mem_of_getElem? found)).projectChildren (within.within position) within
          exact children.bind fun _ _ => ih

theorem IsLinear.revise (linear : f.IsLinear) (leaves : ∀ v, (bounds v).Within (bounds' v)) :
    FollowsValues (f.revise? bounds) (f.revise? bounds') :=
  ((linear.evaluateArena leaves).project (.refl linear.target)).bind fun _ _ => linear.projectBefore _

theorem leaves_within (f : Formula) (within : WithinValues values values') :
    List.Forall₂ (fun leaf leaf' => leaf.1 = leaf'.1 ∧ leaf.2.Within leaf'.2) (f.leaves values) (f.leaves values') := by
  have all : List.Forall₂ Interval.Within values.toList values'.toList := by
    refine List.forall₂_iff_get.2 ⟨within.size, fun p known known' => ?_⟩
    have there := within.within p
    rwa [valueAt, valueAt, Array.getD_eq_getD_getElem?, Array.getD_eq_getD_getElem?, ← Array.getElem?_toList,
      ← Array.getElem?_toList, List.getElem?_eq_getElem known, List.getElem?_eq_getElem known'] at there
  refine List.rel_filterMap (fun entry entry' both => ?_) (forall₂_zip f.arena.toList all)
  obtain ⟨node, i⟩ := entry
  obtain ⟨node', j⟩ := entry'
  obtain ⟨rfl, below⟩ := both
  cases node with
  | var v => exact .some ⟨rfl, below⟩
  | const _ | neg _ | add _ _ | sub _ _ | sum _ | mul _ _ | div _ _ | sqr _ | sqrt _ => exact .none

theorem IsLinear.follows (linear : f.IsLinear) (inside : small.Inside big) :
    Follows small big f.propagate f.propagate fun _ _ => True := by
  refine (follows_require f.scope inside).bind fun _ _ left after inside _ => .get ?_
  cases revised : f.revise? left.bounds with
  | none => trivial
  | some values =>
      obtain ⟨values', revised', within⟩ := linear.revise inside.bounds values revised
      rw [revised']
      refine .forM (f.leaves_within within) (fun ⟨v, i⟩ ⟨w, j⟩ _ _ inside both => ?_) inside
      obtain ⟨rfl, within⟩ := both
      exact (follows_narrow v within inside).discard

theorem isLinear_sumOf (vs : List Var) {target : Interval} (proper : target.Proper) :
    (ofExpr (Store.sumOf vs) target).IsLinear := by
  refine ⟨fun node member => ?_, proper⟩
  cases vs with
  | nil =>
      obtain rfl : node = .const (.point 0.0) := by
        simpa [ofExpr, Store.sumOf, Expr.total, Expr.arena, Expr.layOut] using member
      exact Interval.proper_ofBounds _ _
  | cons v vs =>
      change node ∈ (Store.sumOf (v :: vs)).arena at member
      rw [arena_sumOf (List.cons_ne_nil v vs), List.mem_toArray, List.mem_append] at member
      rcases member with leaf | root
      · obtain ⟨w, -, rfl⟩ := List.mem_map.1 leaf
        trivial
      · obtain rfl := List.mem_singleton.1 root
        trivial

end Formula

end StatBounds
