import StatBounds.Proofs.Store.Operations
import StatBounds.Proofs.Store.Reachability

/-! # Posting

Everything that is checked before a constraint is posted is looked up only, so posting leaves the variables alone
and adds one constraint at the end.
-/

namespace StatBounds

namespace Store

variable {α β : Type} {c : Constraint}

def Checks (operation : StoreM α) : Prop :=
  ∀ store, Ensures operation store (fun _ after => after = store) fun _ _ => True

/-- If the operation succeeds, then it has posted a constraint, and has done nothing else. -/
def Posts (operation : StoreM α) (c : Constraint) : Prop :=
  ∀ store, Ensures operation store (fun _ after => after = store.posting c) fun _ _ => True

namespace Checks

variable {first : StoreM α} {rest : α → StoreM β}

theorem pure (a : α) : Checks (pure a : StoreM α) :=
  fun _ => rfl

theorem fail (failure : Failure) : Checks (throw failure : StoreM α) :=
  fun _ => trivial

theorem bind (head : Checks first) (tail : ∀ a, Checks (rest a)) : Checks (first >>= rest) := by
  intro store
  rw [ensures_bind]
  refine (head store).mono (fun a after same => ?_) fun _ _ => id
  exact same ▸ tail a store

theorem posts (head : Checks first) (tail : ∀ a, Posts (rest a) c) : Posts (first >>= rest) c := by
  intro store
  rw [ensures_bind]
  refine (head store).mono (fun a after same => ?_) fun _ _ => id
  exact same ▸ tail a store

theorem forM {step : α → StoreM PUnit} {as : List α} (each : ∀ a ∈ as, Checks (step a)) :
    Checks (as.forM step) :=
  fun _ => ensures_forM (fun a member _ same => same ▸ each a member _) rfl

theorem get {next : Store → StoreM α} (tail : ∀ store, Checks (next store)) : Checks (get >>= next) :=
  fun store => tail store store

theorem refuse {condition : Prop} [Decidable condition] {failure : Failure} :
    Checks (if condition then throw failure else Pure.pure ⟨⟩ : StoreM PUnit) := by
  split_ifs
  · exact fail _
  · exact pure _

theorem checkVar (v : Var) : Checks (checkVar v) :=
  get fun _ => refuse

theorem checkVars (vs : List Var) : Checks (checkVars vs) :=
  forM fun v _ => checkVar v

theorem fetch (v : Var) : Checks (onVars (Variables.fetch v)) :=
  fun _ => ensures_onVars.2 (ensures_fetch (fun _ _ => rfl) fun _ => trivial)

theorem checkCount (v : Var) : Checks (checkCount v) :=
  (fetch v).bind fun _ => refuse

theorem probe (operation : NarrowM α) : Checks (probe operation) :=
  get fun _ => by
    split
    · exact pure _
    · exact fail _

end Checks

/-- A check that may refuse to go on before a constraint is posted. -/
theorem posts_refuse {condition : Prop} [Decidable condition] {failure : Failure} {rest : PUnit → StoreM α}
    (tail : ¬ condition → Posts (rest ⟨⟩) c) :
    Posts (if condition then throw failure >>= rest else rest ⟨⟩) c := by
  split_ifs with refused
  · exact fun _ => trivial
  · exact tail refused

theorem posts_post (c : Constraint) : Posts (post c) c :=
  (Checks.checkVars c.scope).posts fun _ _ => rfl

theorem posts_postReified (indicator : Var) (atoms : List Atom) :
    Posts (postReified indicator atoms) (.reified { indicator, atoms }) :=
  (Checks.checkVar indicator).posts fun _ => (Checks.fetch indicator).posts fun _ =>
    posts_refuse fun _ => posts_refuse fun _ => posts_post _

theorem ofBins_cases (bins : List Bin) :
    (∃ e, BinCountFilter.ofBins bins = .error e) ∨ BinCountFilter.ofBins bins = .ok { bins } := by
  unfold BinCountFilter.ofBins
  cases Bin.check "bincounts" bins with
  | error e => exact .inl ⟨e, rfl⟩
  | ok _ => exact .inr rfl

theorem posts_postBinCount (items : List Var) (bins : List Bin) (counts : List Var) :
    Posts (postBinCount items bins counts) (.binCount { filter := { bins }, items, counts }) := by
  rcases ofBins_cases bins with ⟨e, made⟩ | made
  · rw [postBinCount, made]
    exact fun _ => trivial
  · simp only [postBinCount, made, orFail, pure_bind]
    exact posts_refuse fun _ => (Checks.checkVars items).posts fun _ => (Checks.checkVars counts).posts fun _ =>
      (Checks.forM fun v _ => Checks.checkCount v).posts fun _ => (Checks.probe _).posts fun _ => posts_post _

/-- Bin counts are posted with a count for each bin only. -/
theorem lengths_of_postBinCount {items counts : List Var} {bins : List Bin} {store after : Store}
    (ran : postBinCount items bins counts store = .ok () after) : counts.length = bins.length := by
  by_contra other
  rcases ofBins_cases bins with ⟨e, made⟩ | made
  · rw [postBinCount, made] at ran
    cases ran
  · simp only [postBinCount, made, orFail, pure_bind] at ran
    rw [if_pos other] at ran
    cases ran

end Store

/-! ## Lists of constraints -/

/-- A constraint as it is posted. -/
inductive Posting where
  | sum (terms : List Var) (total : Var)
  | reified (indicator : Var) (atoms : List Atom)
  | binCount (items : List Var) (bins : List Bin) (counts : List Var)

namespace Posting

/-- Post the constraint. -/
def post : Posting → StoreM Unit
  | sum terms total => Store.postSum terms total
  | reified indicator atoms => Store.postReified indicator atoms
  | binCount items bins counts => Store.postBinCount items bins counts

def constraint : Posting → Constraint
  | sum terms total => .sum { terms, total }
  | reified indicator atoms => .reified { indicator, atoms }
  | binCount items bins counts => .binCount { filter := { bins }, items, counts }

theorem procedure (p : Posting) : Procedure p.post := by
  cases p with
  | sum terms total => exact .postSum terms total
  | reified indicator atoms => exact .postReified indicator atoms
  | binCount items bins counts => exact .postBinCount items bins counts

theorem posts (p : Posting) : Store.Posts p.post p.constraint := by
  cases p with
  | sum terms total => exact Store.posts_post _
  | reified indicator atoms => exact Store.posts_postReified indicator atoms
  | binCount items bins counts => exact Store.posts_postBinCount items bins counts

theorem post_eq {p : Posting} {store after : Store} (ran : p.post store = .ok () after) :
    after = store.posting p.constraint := by
  have posts := p.posts store
  rwa [Ensures, ran] at posts

theorem forM_post {batches : List Store} {postings : List Posting} {store after : Store}
    (reachable : Reachable batches store) (ran : postings.forM Posting.post store = .ok () after) :
    Reachable batches after ∧ after.vars = store.vars ∧
      after.constraints.toList = store.constraints.toList ++ postings.map Posting.constraint ∧
      ∀ p ∈ postings, ∃ before after, p.post before = .ok () after := by
  induction postings generalizing store with
  | nil =>
      cases ran
      exact ⟨reachable, rfl, by simp, by simp⟩
  | cons p rest ih =>
      rw [List.forM] at ran
      simp only [Bind.bind, EStateM.bind] at ran
      cases posted : p.post store with
      | error failure middle => simp [posted] at ran
      | ok _ middle =>
          rw [posted] at ran
          obtain ⟨reached, same, constraints, each⟩ := ih (.succeeded reachable p.procedure posted) ran
          rw [post_eq posted] at same constraints
          exact ⟨reached, same, by simpa [Store.posting] using constraints,
            List.forall_mem_cons.2 ⟨⟨store, middle, posted⟩, each⟩⟩

end Posting

end StatBounds
