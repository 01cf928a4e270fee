import StatBounds.Proofs.Propagation.FixedPoint
import StatBounds.Proofs.Propagation.Monotone

/-! # What settled constraints tell

On integer variables every change is recorded. So if an operation leaves the variables as they are, each of its steps
does, and whatever the steps narrow to already holds of the domains. Of a constraint that has nothing left to do this
says what it has achieved.
-/

namespace StatBounds

section

variable {α β : Type} {known : Var → Prop} {vars : Variables} {v : Var} {x : Variable}

/-- The steps of an operation that changes nothing change nothing. -/
theorem Local.quiet_bind {first : NarrowM α} {rest : α → NarrowM β} {b : β} (head : Local known first)
    (tail : ∀ a, Local known (rest a)) (finite : vars.FiniteOn known) (ran : (first >>= rest) vars = .ok b vars) :
    ∃ a, first vars = .ok a vars ∧ rest a vars = .ok b vars := by
  have recorded := head.records (fun _ => id) vars finite
  simp only [Bind.bind, EStateM.bind] at ran
  cases outcome : first vars with
  | error failure after => simp [outcome] at ran
  | ok a middle =>
      rw [Ensures, outcome] at recorded
      obtain ⟨older, changes, quiet⟩ := recorded
      have second : rest a middle = .ok b vars := by rwa [outcome] at ran
      have later := (tail a).records (fun _ => id) middle changes.finite
      rw [Ensures, second] at later
      obtain ⟨newer, others, -⟩ := later
      have none : older = [] := by
        have total := (changes.trans others).changed
        rw [List.self_eq_append_right, List.append_eq_nil_iff] at total
        exact total.1
      obtain ⟨rfl, -⟩ := quiet none
      exact ⟨a, rfl, second⟩

theorem Local.quiet_forM {step : α → NarrowM PUnit} {as : List α} (each : ∀ a ∈ as, Local known (step a))
    (finite : vars.FiniteOn known) (ran : as.forM step vars = .ok ⟨⟩ vars) :
    ∀ a ∈ as, step a vars = .ok ⟨⟩ vars := by
  induction as with
  | nil => simp
  | cons a as ih =>
      have others := fun b member => each b (List.mem_cons_of_mem a member)
      obtain ⟨⟨⟩, first, rest⟩ := (each a (by simp)).quiet_bind (fun _ => Local.forM others) finite ran
      exact List.forall_mem_cons.2 ⟨first, ih others rest⟩

/-- An operation that leaves the greatest part that passes a test changes nothing only if the domain passes. -/
theorem Narrows.of_quiet {operation : NarrowM α} {test : Domain → Prop} {a : α} (narrows : Narrows operation v test)
    (found : vars.get? v = some x) (proper : x.domain.Proper) (ran : operation vars = .ok a vars) : test x.domain := by
  have leaves := narrows.found vars x found proper
  rw [LeavesPart, Ensures, ran] at leaves
  obtain ⟨part, replaced, greatest⟩ := leaves
  have same := replaced.here
  rw [found] at same
  obtain rfl : x.domain = part := congrArg Variable.domain (Option.some.inj same)
  exact greatest.passes

/-- Narrowing an integer variable changes nothing only if the interval encloses its values. -/
theorem within_of_quiet {s : IntSet} {onto : Interval} (proper : onto.Proper) (found : vars.get? v = some x)
    (domain : x.domain = .finite s) (ran : discard (Variables.narrow v onto) vars = .ok ⟨⟩ vars) :
    s.hull.Within onto := by
  have passes := (narrows_narrow v proper).discard.of_quiet found (domain ▸ trivial) ran
  rwa [domain] at passes

end

/-! ## Constraints -/

variable {vars : Variables} {x : Variable} {s : IntSet}

theorem Interval.proper_sum (parts : List Interval) : (Interval.sum parts).Proper := by
  have fold (acc : Interval) (proper : acc.Proper) : (parts.foldl (· + ·) acc).Proper := by
    induction parts generalizing acc with
    | nil => exact proper
    | cons part parts ih => exact ih _ (proper_add acc part)
  exact fold _ (proper_ofBounds _ _)

/-- Checking that variables exist changes nothing. -/
theorem of_require {β : Type} {vs : List Var} {rest : PUnit → NarrowM β} {b : β} {after : Variables}
    (ran : (Variables.require vs >>= rest) vars = .ok b after) : rest ⟨⟩ vars = .ok b after := by
  have same : Ensures (Variables.require vs) vars (fun _ after => after = vars) fun _ _ => True :=
    ensures_forM (fun v _ _ same => ensures_discard.2 (ensures_fetch (fun _ _ => same) fun _ => trivial)) rfl
  simp only [Bind.bind, EStateM.bind] at ran
  cases outcome : Variables.require vs vars with
  | error failure middle => simp [outcome] at ran
  | ok _ middle =>
      rw [Ensures, outcome] at same
      obtain rfl := same
      rwa [outcome] at ran

/-- A settled sum has bounded its total by the terms, and each term by the total and the other terms. -/
theorem Sum.of_settled {c : Sum} (finite : vars.FiniteOn (· ∈ c.scope)) (settled : (Constraint.sum c).Settled vars) :
    (∀ x s, vars.get? c.total = some x → x.domain = .finite s →
      s.hull.Within (Interval.sum (c.terms.map vars.bounds))) ∧
    ∀ term ∈ c.terms.zip (Interval.sumsOfOthers (c.terms.map vars.bounds)), ∀ x s, vars.get? term.1 = some x →
      x.domain = .finite s → s.hull.Within (vars.bounds c.total - term.2) := by
  have total : c.total ∈ c.scope := by simp [scope]
  have narrows (target : Interval) : ∀ term ∈ c.terms.zip (Interval.sumsOfOthers (c.terms.map vars.bounds)),
      Local (· ∈ c.scope) (discard (Variables.narrow term.1 (target - term.2))) :=
    fun term member => (Local.narrow (List.mem_append_left _ (List.of_mem_zip member).1) _).discard
  obtain ⟨_, first, rest⟩ := (Local.narrow total _).discard.quiet_bind (fun _ => .read (fun after =>
    .forM (narrows (after.bounds c.total))) fun after others same => by rw [Variables.bounds_congr (same _ total)])
      finite (of_require settled)
  have others := Local.quiet_forM (narrows _) finite rest
  refine ⟨fun x s found domain => within_of_quiet (Interval.proper_sum _) found domain first,
    fun pair member x s found domain => ?_⟩
  exact within_of_quiet (Interval.proper_add _ _) found domain (others pair member)

theorem Reified.of_settled {c : Reified} (settled : (Constraint.reified c).Settled vars) :
    c.respond vars vars = .ok () vars :=
  of_require settled

theorem Formula.of_settled {f : Formula} (settled : (Constraint.formula f).Settled vars) :
    ∃ values, f.revise? vars.bounds = some values := by
  have ran := of_require settled
  cases revised : f.revise? vars.bounds with
  | some values => exact ⟨values, rfl⟩
  | none =>
      simp only [Bind.bind, EStateM.bind, get, getThe, MonadStateOf.get, EStateM.get, revised] at ran
      cases ran

end StatBounds
