import StatBounds.Constraint.Basic
import StatBounds.Proofs.BinCount.Faults

/-! # Operations that only narrow

Constraints read domains and narrow variables one after another, and do nothing else. What holds of
such operations is shown once, by induction on how they are made of single steps. The variables that an
operation addresses are kept track of, since only those have to exist. The built-in constraints moreover
look at no other variables, and their first failure ends them.
-/

namespace StatBounds

/-! ## What reading depends on -/

theorem Variables.bounds_congr {vars others : Variables} {v : Var} (same : vars.get? v = others.get? v) :
    vars.bounds v = others.bounds v := by
  rw [bounds, bounds, same]

theorem Atom.truthIn_congr {vars others : Variables} {a : Atom} (same : vars.get? a.var = others.get? a.var) :
    a.truthIn vars = a.truthIn others := by
  rw [truthIn, truthIn, same]

theorem evaluateArena_congr {arena : Array Node} {bounds bounds' : Var → Interval}
    (same : ∀ v, Node.var v ∈ arena → bounds v = bounds' v) :
    evaluateArena bounds arena = evaluateArena bounds' arena := by
  rw [evaluateArena, evaluateArena, ← Array.foldl_toList, ← Array.foldl_toList]
  refine List.foldl_ext _ _ _ fun values node member => ?_
  cases node with
  | var v => rw [Node.evaluate, Node.evaluate, same v (Array.mem_toList_iff.1 member)]
  | _ => rfl

def Reified.respond (c : Reified) (vars : Variables) : NarrowM Unit :=
  if c.atoms.any fun a => a.truthIn vars == .no then
    discard (Variables.narrow c.indicator (.point 0.0))
  else if c.atoms.all fun a => a.truthIn vars == .yes then
    discard (Variables.narrow c.indicator (.point 1.0))
  else if (vars.bounds c.indicator).lo ≥ 1.0 then
    c.atoms.forM Atom.enforce
  else if (vars.bounds c.indicator).hi ≤ 0.0 then
    match c.atoms.filter fun a => a.truthIn vars == .unknown with
    | [last] => last.refute
    | _ => pure ()
  else
    pure ()

theorem Reified.propagate_eq (c : Reified) :
    c.propagate = Variables.require c.scope >>= fun _ => get >>= c.respond := by
  rfl

/-! ## Local operations -/

/-- An operation made of steps that read or narrow variables of a given kind, or fail. -/
inductive Local (inside : Var → Prop) : {α : Type} → NarrowM α → Prop
  | pure {α : Type} (a : α) : Local inside (pure a)
  | fail {α : Type} {failure : Failure} (inRange : failure.InRange) :
      Local inside (throw failure : NarrowM α)
  | bind {α β : Type} {first : NarrowM α} {rest : α → NarrowM β} (head : Local inside first)
      (tail : ∀ a, Local inside (rest a)) : Local inside (first >>= rest)
  /-- Variables of the kind are read, and nothing else decides how to go on. -/
  | read {α : Type} {next : Variables → NarrowM α} (tail : ∀ vars, Local inside (next vars))
      (same : ∀ vars others : Variables, (∀ v, inside v → vars.get? v = others.get? v) →
        next vars = next others) :
      Local inside (get >>= next)
  | fetch {v : Var} (known : inside v) : Local inside (Variables.fetch v)
  | retain {v : Var} (known : inside v) (keep : Int → Bool) : Local inside (Variables.retain v keep)
  | narrow {v : Var} (known : inside v) (onto : Interval) : Local inside (Variables.narrow v onto)

/-- An operation made of steps that read domains, narrow variables of a given kind, or fail, and that may
    go on after an error. -/
inductive Narrowing (inside : Var → Prop) : {α : Type} → NarrowM α → Prop
  | pure {α : Type} (a : α) : Narrowing inside (pure a)
  | fail {α : Type} {failure : Failure} (inRange : failure.InRange) :
      Narrowing inside (throw failure : NarrowM α)
  | bind {α β : Type} {first : NarrowM α} {rest : α → NarrowM β} (head : Narrowing inside first)
      (tail : ∀ a, Narrowing inside (rest a)) : Narrowing inside (first >>= rest)
  /-- The domains are read, and nothing else decides how to go on. -/
  | read {α : Type} {next : Variables → NarrowM α} (tail : ∀ vars, Narrowing inside (next vars))
      (same : ∀ vars others, vars.arena = others.arena → next vars = next others) :
      Narrowing inside (get >>= next)
  | fetch {v : Var} (known : inside v) : Narrowing inside (Variables.fetch v)
  | sift {v : Var} (known : inside v) (keep : List Int → Int → Bool) : Narrowing inside (Variables.sift v keep)
  | narrow {v : Var} (known : inside v) (onto : Interval) : Narrowing inside (Variables.narrow v onto)
  | attempt {act : Act} (body : Narrowing inside act.run) : Narrowing inside (Act.attempt act).run

variable {inside : Var → Prop} {α β : Type}

namespace Local

variable {inside : Var → Prop} {α β : Type}

theorem map {operation : NarrowM α} (f : α → β) (isLocal : Local inside operation) :
    Local inside (f <$> operation) := by
  rw [map_eq_pure_bind]
  exact isLocal.bind fun _ => .pure _

theorem discard {operation : NarrowM α} (isLocal : Local inside operation) :
    Local inside (discard operation) :=
  isLocal.map _

theorem forM {step : α → NarrowM PUnit} {as : List α} (each : ∀ a ∈ as, Local inside (step a)) :
    Local inside (as.forM step) := by
  induction as with
  | nil => exact .pure _
  | cons a as ih =>
      exact (each a (by simp)).bind fun _ => ih fun a member => each a (by simp [member])

theorem mapM {step : α → NarrowM β} {as : List α} (each : ∀ a ∈ as, Local inside (step a)) :
    Local inside (as.mapM step) := by
  induction as with
  | nil => exact .pure _
  | cons a as ih =>
      rw [List.mapM_cons]
      exact (each a (by simp)).bind fun b =>
        (ih fun a member => each a (by simp [member])).bind fun bs => .pure _

theorem require {vs : List Var} (known : ∀ v ∈ vs, inside v) : Local inside (Variables.require vs) :=
  forM fun v member => (fetch (known v member)).discard

theorem restrict {v : Var} (known : inside v) (onto : Domain) :
    Local inside (Variables.restrict v onto) := by
  unfold Variables.restrict
  refine (fetch known).bind fun x => ?_
  split
  · exact retain known _
  · exact narrow known _

theorem enforce {a : Atom} (known : inside a.var) : Local inside a.enforce := by
  unfold Atom.enforce
  refine (fetch known).bind fun x => ?_
  split
  · exact (retain known _).discard
  · exact (narrow known _).discard

theorem refute {a : Atom} (known : inside a.var) : Local inside a.refute := by
  unfold Atom.refute
  refine (fetch known).bind fun x => ?_
  split
  · exact (retain known _).discard
  · split
    · exact (narrow known _).discard
    · exact .pure _

/-! ## Constraints -/

theorem sum {c : Sum} (known : ∀ v ∈ c.scope, inside v) : Local inside c.propagate := by
  have total : inside c.total := known _ (by simp [Sum.scope])
  have term (v : Var) (member : v ∈ c.terms) : inside v := known v (List.mem_append_left _ member)
  refine (require known).bind fun _ => read (fun vars => ?_) fun vars others same => by
    rw [List.map_congr_left fun v member => Variables.bounds_congr (same v (term v member))]
  refine (narrow total _).discard.bind fun _ => read (fun after => ?_) fun vars others same => by
    rw [Variables.bounds_congr (same _ total)]
  exact forM fun ⟨v, others⟩ member => (narrow (term v (List.of_mem_zip member).1) _).discard

theorem respond {c : Reified} (known : ∀ v ∈ c.scope, inside v) (vars : Variables) :
    Local inside (c.respond vars) := by
  have indicator : inside c.indicator := known _ (by simp [Reified.scope])
  have tested (a : Atom) (member : a ∈ c.atoms) : inside a.var :=
    known _ (List.mem_append_left _ (List.mem_map_of_mem member))
  unfold Reified.respond
  split_ifs
  · exact (narrow indicator _).discard
  · exact (narrow indicator _).discard
  · exact forM fun a member => enforce (tested a member)
  · split
    · next last single =>
        have listed : last ∈ c.atoms.filter fun a => a.truthIn vars == .unknown := by simp [single]
        exact refute (tested last (List.mem_filter.1 listed).1)
    · exact .pure _
  · exact .pure _

theorem reified {c : Reified} (known : ∀ v ∈ c.scope, inside v) : Local inside c.propagate := by
  rw [Reified.propagate_eq]
  refine (require known).bind fun _ => read (respond known) fun vars others same => ?_
  have truth (a : Atom) (member : a ∈ c.atoms) : a.truthIn vars = a.truthIn others :=
    Atom.truthIn_congr (same _ (known _ (List.mem_append_left _ (List.mem_map_of_mem member))))
  have anyNo : (c.atoms.any fun a => a.truthIn vars == .no) =
      c.atoms.any fun a => a.truthIn others == .no := by
    rw [Bool.eq_iff_iff, List.any_eq_true, List.any_eq_true]
    exact exists_congr fun a => and_congr_right fun member => by rw [truth a member]
  have allYes : (c.atoms.all fun a => a.truthIn vars == .yes) =
      c.atoms.all fun a => a.truthIn others == .yes := by
    rw [Bool.eq_iff_iff, List.all_eq_true, List.all_eq_true]
    exact forall₂_congr fun a member => by rw [truth a member]
  have unknown : (c.atoms.filter fun a => a.truthIn vars == .unknown) =
      c.atoms.filter fun a => a.truthIn others == .unknown :=
    List.filter_congr fun a member => by rw [truth a member]
  have indicator : vars.bounds c.indicator = others.bounds c.indicator :=
    Variables.bounds_congr (same _ (known _ (by simp [Reified.scope])))
  rw [Reified.respond, Reified.respond, anyNo, allYes, unknown, indicator]

theorem formula {f : Formula} (known : ∀ v ∈ f.scope, inside v)
    (leaves : ∀ v, Node.var v ∈ f.arena → inside v) : Local inside f.propagate := by
  refine (require known).bind fun _ => read (fun vars => ?_) fun vars others same => ?_
  · split
    · exact .fail fun _ _ => by simp
    · next values _ =>
        refine forM fun ⟨v, value⟩ member => (narrow (leaves v ?_) _).discard
        simp only [Formula.leaves, List.mem_filterMap, Prod.exists] at member
        obtain ⟨node, value, zipped, found⟩ := member
        cases node with
        | var w =>
            obtain ⟨rfl, rfl⟩ := Prod.mk.inj (Option.some.inj found)
            exact Array.mem_toList_iff.1 (List.of_mem_zip zipped).1
        | _ => simp at found
  · have revised : f.revise? vars.bounds = f.revise? others.bounds := by
      rw [Formula.revise?, Formula.revise?,
        evaluateArena_congr fun v member => Variables.bounds_congr (same v (leaves v member))]
    rw [revised]

theorem filtered {c : BinCount} (known : ∀ v ∈ c.scope, inside v) : Local inside c.filtered := by
  have item (v : Var) (member : v ∈ c.items) : inside v := known v (List.mem_append_left _ member)
  have count (v : Var) (member : v ∈ c.counts) : inside v := known v (List.mem_append_right _ member)
  refine (mapM fun v member => (fetch (item v member)).bind fun _ => .pure _).bind fun domains => ?_
  refine (mapM fun v member => (fetch (count v member)).bind fun x => ?_).bind fun ranges => ?_
  · split
    · exact .pure _
    · exact .fail fun _ _ => by simp
  · split
    · exact .pure _
    · next failure fails => exact .fail (BinCountFilter.failsInRange_filter fails)

theorem binCount {c : BinCount} (known : ∀ v ∈ c.scope, inside v) : Local inside c.propagate := by
  refine (filtered known).bind fun out => (forM fun ⟨v, domain⟩ member => ?_).bind fun _ =>
    forM fun ⟨v, range⟩ member => ?_
  · exact (narrow (known v (List.mem_append_right _ (List.of_mem_zip member).1)) _).discard
  · exact (restrict (known v (List.mem_append_left _ (List.of_mem_zip member).1)) _).discard

/-- What is local only narrows. -/
theorem narrowing {operation : NarrowM α} (isLocal : Local inside operation) :
    Narrowing inside operation := by
  induction isLocal with
  | pure a => exact .pure a
  | fail inRange => exact .fail inRange
  | bind head tail ihHead ihTail => exact ihHead.bind ihTail
  | read tail same ih =>
      exact .read ih fun vars others same' => same vars others fun v _ => by
        rw [Variables.get?, Variables.get?, same']
  | fetch known => exact .fetch known
  | retain known keep => exact .sift known _
  | narrow known onto => exact .narrow known onto

end Local

/-- Operations are performed one after the other. -/
theorem Act.runAll_cons (first : Act) (rest : List Act) :
    (fun vars => (runAll (first :: rest) vars).2) = first.run >>= fun _ vars => (runAll rest vars).2 := by
  funext vars
  simp only [runAll, Bind.bind, EStateM.bind]
  cases first.run vars <;> rfl

namespace Narrowing

theorem act (act : Act) : Narrowing (fun _ => True) act.run := by
  induction act with
  | narrow v onto => exact (narrow trivial onto).bind fun _ => .pure _
  | restrict v onto => exact (Local.restrict trivial onto).narrowing.bind fun _ => .pure _
  | sift v keep => exact (sift trivial keep).bind fun _ => .pure _
  | enforce a => exact (Local.enforce trivial).narrowing.bind fun _ => .pure _
  | refute a => exact (Local.refute trivial).narrowing.bind fun _ => .pure _
  | truth a => exact (fetch trivial).bind fun _ => .pure _
  | see v => exact (fetch trivial).bind fun _ => .pure _
  | count => exact read (fun _ => .pure _) fun vars others same => by simp only [Variables.size, same]
  | fail e => exact .fail fun _ _ => by simp
  | attempt act ih => exact ih.attempt

theorem runAll (acts : List Act) : Narrowing (fun _ => True) fun vars => (Act.runAll acts vars).2 := by
  induction acts with
  | nil => exact .pure _
  | cons first rest ih =>
      rw [Act.runAll_cons]
      exact (act first).bind fun _ => ih

/-- Whatever a constraint is, it only narrows. -/
theorem constraint (c : Constraint) : Narrowing (fun _ => True) c.propagate := by
  cases c with
  | formula f => exact (Local.formula (fun _ _ => trivial) fun _ _ => trivial).narrowing
  | sum c => exact (Local.sum fun _ _ => trivial).narrowing
  | reified c => exact (Local.reified fun _ _ => trivial).narrowing
  | binCount c => exact (Local.binCount fun _ _ => trivial).narrowing
  | custom c =>
      exact read (fun vars => runAll (c.plan vars.arena)) fun vars others same => by rw [same]

end Narrowing

/-! ## Built-in constraints -/

/-- The constraint is not a user-defined one, and if it is a formula, it is made of an expression. -/
def Constraint.IsBuiltIn : Constraint → Prop
  | formula f => ∃ e target, f = .ofExpr e target
  | custom _ => False
  | _ => True

mutual

theorem Expr.var_mem_layOut {v : Var} : ∀ (e : Expr) {arena : Array Node},
    Node.var v ∈ e.layOut arena → Node.var v ∈ arena ∨ v ∈ e.occurrences
  | .var w, arena, member => by
      rw [layOut, Array.mem_push] at member
      simpa [occurrences] using member
  | .const c, arena, member => by
      rw [layOut, Array.mem_push] at member
      exact .inl (member.resolve_right (by simp))
  | .neg a, arena, member | .sqr a, arena, member | .sqrt a, arena, member => by
      rw [layOut, layOut.layOutUnary, Array.mem_push] at member
      exact var_mem_layOut a (member.resolve_right (by simp))
  | .add a b, arena, member | .sub a b, arena, member | .mul a b, arena, member
  | .div a b, arena, member => by
      rw [layOut, layOut.layOutBinary, Array.mem_push] at member
      rw [occurrences, List.mem_append]
      rcases var_mem_layOut b (member.resolve_right (by simp)) with earlier | later
      · exact (var_mem_layOut a earlier).imp_right .inl
      · exact .inr (.inr later)
  | .sum terms, arena, member => by
      rw [layOut, Array.mem_push] at member
      exact var_mem_layOutAll terms (member.resolve_right (by simp))

theorem Expr.var_mem_layOutAll {v : Var} : ∀ (es : List Expr) {arena : Array Node},
    Node.var v ∈ (layOutAll es arena).2 → Node.var v ∈ arena ∨ v ∈ occurrencesAll es
  | [], arena, member => .inl member
  | e :: rest, arena, member => by
      rw [layOutAll] at member
      rw [occurrencesAll, List.mem_append]
      rcases var_mem_layOutAll rest member with earlier | later
      · exact (var_mem_layOut e earlier).imp_right .inl
      · exact .inr (.inr later)

end

theorem Formula.mem_scope_of_mem_arena {e : Expr} {target : Interval} {v : Var}
    (member : Node.var v ∈ (ofExpr e target).arena) : v ∈ (ofExpr e target).scope :=
  List.mem_eraseDups.2 ((Expr.var_mem_layOut e member).resolve_left (by simp))

/-- A built-in constraint addresses only the variables of its scope. -/
theorem Constraint.local_scope {c : Constraint} (builtIn : c.IsBuiltIn) : Local (· ∈ c.scope) c.propagate := by
  cases c with
  | formula f =>
      obtain ⟨e, target, rfl⟩ := builtIn
      exact Local.formula (fun _ member => member) fun _ => Formula.mem_scope_of_mem_arena
  | sum c => exact Local.sum fun _ member => member
  | reified c => exact Local.reified fun _ member => member
  | binCount c => exact Local.binCount fun _ member => member
  | custom c => exact builtIn.elim

end StatBounds
