import StatBounds.Encoding.Histogram
import StatBounds.Proofs.Encoding.Layout
import StatBounds.Proofs.Store.Steps

/-! # Encoding the same series in two ways

The kind of a series decides by which tests an indicator tells the membership in a bin, and nothing else. So for
integers both kinds create the same variables in the same order, and post equally many constraints.
-/

namespace StatBounds.Store

variable {α β γ : Type} {one other store : Store}

/-- Two stores have the same variables and settings, and equally many constraints, which watch the same variables. -/
structure Twin (one other : Store) : Prop where
  vars : one.vars = other.vars
  constraints : one.constraints.size = other.constraints.size
  watchers : one.watchers = other.watchers
  config : one.config = other.config

theorem Twin.refl (store : Store) : store.Twin store :=
  ⟨rfl, rfl, rfl, rfl⟩

/-- Two operations on two stores both succeed with the same answer and leave twins, or both fail for the same
    reason. -/
def Lockstep (first second : StoreM α) (one other : Store) : Prop :=
  match first one, second other with
  | .ok a after, .ok b after' => a = b ∧ after.Twin after'
  | .error failure _, .error failure' _ => failure = failure'
  | _, _ => False

namespace Lockstep

theorem pure (twin : one.Twin other) (a : α) : Lockstep (pure a) (pure a) one other :=
  ⟨rfl, twin⟩

theorem bind {first second : StoreM α} {rest rest' : α → StoreM β} (head : Lockstep first second one other)
    (tail : ∀ a after after', after.Twin after' → Lockstep (rest a) (rest' a) after after') :
    Lockstep (first >>= rest) (second >>= rest') one other := by
  unfold Lockstep at head ⊢
  simp only [Bind.bind, EStateM.bind]
  cases ran : first one with
  | ok a after =>
      cases ran' : second other with
      | error failure after' => simp [ran, ran'] at head
      | ok b after' =>
          obtain ⟨rfl, twin⟩ : a = b ∧ after.Twin after' := by simpa [ran, ran'] using head
          exact tail a after after' twin
  | error failure after =>
      cases ran' : second other with
      | ok b after' => simp [ran, ran'] at head
      | error failure' after' => simpa [ran, ran'] using head

theorem mapM {first second : α → StoreM β} {as : List α}
    (each : ∀ a ∈ as, ∀ one other, one.Twin other → Lockstep (first a) (second a) one other)
    (twin : one.Twin other) : Lockstep (as.mapM first) (as.mapM second) one other := by
  induction as generalizing one other with
  | nil => exact .pure twin _
  | cons a as ih =>
      rw [List.mapM_cons, List.mapM_cons]
      exact (each a (by simp) one other twin).bind fun _ _ _ twin =>
        (ih (fun b member => each b (by simp [member])) twin).bind fun _ _ _ twin => .pure twin _

theorem forM {first second : α → StoreM PUnit} {as : List α}
    (each : ∀ a ∈ as, ∀ one other, one.Twin other → Lockstep (first a) (second a) one other)
    (twin : one.Twin other) : Lockstep (as.forM first) (as.forM second) one other := by
  induction as generalizing one other with
  | nil => exact .pure twin _
  | cons a as ih =>
      exact (each a (by simp) one other twin).bind fun _ _ _ twin =>
        ih (fun b member => each b (by simp [member])) twin

theorem refuse {condition : Prop} [Decidable condition] {failure : Failure} {rest rest' : PUnit → StoreM α}
    (tail : Lockstep (rest ⟨⟩) (rest' ⟨⟩) one other) :
    Lockstep (if condition then throw failure >>= rest else rest ⟨⟩)
      (if condition then throw failure >>= rest' else rest' ⟨⟩) one other := by
  split_ifs
  · exact rfl
  · exact tail

/-- Two checks that come to the same on a store. -/
theorem check {check check' : StoreM α} {rest rest' : α → StoreM β} (checks : Checks check)
    (same : check' store = check store) (tail : ∀ a, Lockstep (rest a) (rest' a) store store) :
    Lockstep (check >>= rest) (check' >>= rest') store store := by
  have kept := checks store
  unfold Lockstep
  simp only [Bind.bind, EStateM.bind, same]
  cases outcome : check store with
  | error failure after => exact rfl
  | ok a after =>
      rw [Ensures, outcome] at kept
      subst kept
      exact tail a

theorem onVars (operation : NarrowM α) (twin : one.Twin other) :
    Lockstep (onVars operation) (onVars operation) one other := by
  unfold Lockstep Store.onVars
  rw [twin.vars]
  cases operation other.vars with
  | ok a vars => exact ⟨rfl, rfl, twin.constraints, twin.watchers, twin.config⟩
  | error failure vars => exact rfl

theorem checkVar (v : Var) (twin : one.Twin other) : Lockstep (checkVar v) (checkVar v) one other := by
  unfold Lockstep
  rw [checkVar_eq, checkVar_eq, twin.vars]
  split_ifs
  · exact ⟨rfl, twin⟩
  · exact rfl

theorem checkVars (vs : List Var) (twin : one.Twin other) : Lockstep (checkVars vs) (checkVars vs) one other :=
  .forM (fun v _ _ _ => checkVar v) twin

/-- A new variable gets the next position. -/
theorem addVar (name : String) (domain : Domain) (twin : one.Twin other) :
    Lockstep (addVar name domain) (addVar name domain) one other := by
  refine (onVars _ twin).bind fun v after after' twin => ?_
  exact ⟨rfl, twin.vars, twin.constraints, congrArg (Array.push · []) twin.watchers, twin.config⟩

/-- Constraints that look at the same variables and whose scopes are checked alike are posted alike. -/
theorem post {c c' : Constraint} (scopes : Lockstep (Store.checkVars c.scope) (Store.checkVars c'.scope) one other)
    (same : c.scope.eraseDups = c'.scope.eraseDups) : Lockstep (post c) (post c') one other := by
  refine scopes.bind fun _ after after' twin => ?_
  refine ⟨rfl, twin.vars, by simp [twin.constraints], ?_, twin.config⟩
  simp only [watch, same, twin.constraints, twin.watchers]

theorem postExpr (e : Expr) (target : Interval) (twin : one.Twin other) :
    Lockstep (postExpr e target) (postExpr e target) one other := by
  unfold Store.postExpr
  exact .refuse (.post (.checkVars _ twin) rfl)

theorem batch {first second : StoreM α}
    (inside : ∀ one other, one.Twin other → Lockstep first second one other) :
    Lockstep (batch first) (batch second) store store := by
  have steps := inside store.openBatch store.openBatch (.refl _)
  unfold Lockstep Store.batch at *
  cases ran : first store.openBatch with
  | ok a after =>
      cases ran' : second store.openBatch with
      | error failure after' => simp [ran, ran'] at steps
      | ok b after' =>
          obtain ⟨rfl, twin⟩ : a = b ∧ after.Twin after' := by simpa [ran, ran'] using steps
          refine ⟨rfl, ?_, twin.constraints, twin.watchers, twin.config⟩
          simp only [closeBatch, commit, twin.vars]
  | error failure after =>
      cases ran' : second store.openBatch with
      | ok b after' => simp [ran, ran'] at steps
      | error failure' after' => simpa [ran, ran'] using steps

end Lockstep

/-! ## Histograms -/

variable {series counts : List Var} {bins : List Bin} {name : String}

theorem Checks.forM_congr {step step' : α → StoreM PUnit} {as : List α} (each : ∀ a ∈ as, Checks (step a))
    (same : ∀ a ∈ as, step a store = step' a store) : as.forM step store = as.forM step' store := by
  induction as with
  | nil => rfl
  | cons a as ih =>
      have rest := ih (fun b member => each b (by simp [member])) fun b member => same b (by simp [member])
      have kept := each a (by simp) store
      have first := same a (by simp)
      change (step a >>= fun _ => as.forM step) store = (step' a >>= fun _ => as.forM step') store
      simp only [Bind.bind, EStateM.bind, ← first]
      cases outcome : step a store with
      | error failure after => rfl
      | ok _ after =>
          rw [Ensures, outcome] at kept
          subst kept
          exact rest

/-- Integers can be part of both kinds of series. -/
theorem checkSeries_kinds (task : String) (kind kind' : SeriesKind)
    (finite : ∀ v ∈ series, ∀ x, store.vars.get? v = some x → x.domain.isFinite = true) :
    checkSeries task kind series store = checkSeries task kind' series store := by
  refine Checks.forM_congr (fun v _ => (Checks.checkVar v).bind fun _ => (Checks.fetch v).bind fun _ => Checks.refuse)
    fun v member => ?_
  have accepts {x : Variable} (found : store.vars.get? v = some x) (kind : SeriesKind) :
      kind.accepts x.domain = true := by
    cases kind with
    | discrete => exact finite v member x found
    | continuous => rfl
  simp only [Bind.bind, EStateM.bind, checkVar_eq]
  split_ifs with known
  · obtain ⟨x, found⟩ := get?_of_contains known
    simp only [onVars, fetch_eq found, accepts found, Bool.not_true, Bool.false_eq_true, if_false]
  · rfl

/-- Two inequalities look at the same variables as one interval. -/
theorem eraseDups_scope_membership (v z : Var) (bin : Bin) (kind kind' : SeriesKind) :
    (Constraint.reified { indicator := z, atoms := kind.membership v bin }).scope.eraseDups =
      (Constraint.reified { indicator := z, atoms := kind'.membership v bin }).scope.eraseDups := by
  have once : [v, v, z].eraseDups = [v, z].eraseDups := by simp [List.eraseDups_cons]
  cases kind <;> cases kind' <;> first | rfl | exact once | exact once.symm

theorem Lockstep.checkScope (v z : Var) (bin : Bin) (kind kind' : SeriesKind) (twin : one.Twin other) :
    Lockstep (Store.checkVars (Constraint.reified { indicator := z, atoms := kind.membership v bin }).scope)
      (Store.checkVars (Constraint.reified { indicator := z, atoms := kind'.membership v bin }).scope) one other := by
  have scope (kind : SeriesKind) (store : Store) :
      Store.checkVars (Constraint.reified { indicator := z, atoms := kind.membership v bin }).scope store =
        Store.checkVars [v, z] store := by
    cases kind with
    | continuous => rfl
    | discrete =>
        change (Store.checkVar v >>= fun _ => Store.checkVars [v, z]) store = _
        simp only [Bind.bind, EStateM.bind, checkVar_eq]
        split_ifs with known
        · rfl
        · change _ = (Store.checkVar v >>= fun _ => Store.checkVars [z]) store
          simp only [Bind.bind, EStateM.bind, checkVar_eq, if_neg known]
  have same := checkVars [v, z] twin
  unfold Lockstep at same ⊢
  rwa [scope, scope]

theorem Lockstep.newIndicator (name : String) (v : Var) (bin : Bin) (kind kind' : SeriesKind) (twin : one.Twin other) :
    Lockstep (newIndicator name (kind.membership v bin)) (newIndicator name (kind'.membership v bin)) one other := by
  have some (kind : SeriesKind) : (kind.membership v bin).isEmpty = false := by cases kind <;> rfl
  have posted (z : Var) {one other : Store} (twin : one.Twin other) :
      Lockstep (postReified z (kind.membership v bin)) (postReified z (kind'.membership v bin)) one other := by
    refine (checkVar z twin).bind fun _ _ _ twin => (onVars _ twin).bind fun x _ _ twin => .refuse ?_
    simp only [some, Bool.false_eq_true, if_false]
    exact .post (.checkScope v z bin kind kind' twin) (eraseDups_scope_membership v z bin kind kind')
  exact (addVar name _ twin).bind fun z _ _ twin => (posted z twin).bind fun _ _ _ twin => .pure twin z

/-- Encoding integers in both ways. -/
theorem lockstep_encodeHistogram (kind kind' : SeriesKind)
    (finite : ∀ v ∈ series, ∀ x, store.vars.get? v = some x → x.domain.isFinite = true) :
    Lockstep (encodeHistogram kind name series bins counts) (encodeHistogram kind' name series bins counts)
      store store := by
  refine .check (Checks.orFail _) rfl fun _ => .refuse ?_
  refine .check (Checks.checkSeries _ _ _) (checkSeries_kinds _ _ _ finite) fun _ => ?_
  refine .check (Checks.checkVars _) rfl fun _ => .batch fun one other twin => ?_
  refine Lockstep.bind (.mapM (fun item _ one other twin => ?_) twin) fun rows _ _ twin => ?_
  · refine Lockstep.bind (.mapM (fun bin _ one other twin => ?_) twin) fun row _ _ twin => ?_
    · exact .newIndicator _ _ _ _ _ twin
    · have posted := Lockstep.postExpr (sumOf row) (.point 1.0) twin
      exact posted.bind fun _ _ _ twin => .pure twin _
  · exact .forM (fun count _ one other twin => .post (.checkVars _ twin) rfl) twin

end StatBounds.Store
