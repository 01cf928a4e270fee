import StatBounds.Encoding.Contingency
import StatBounds.Encoding.Histogram
import StatBounds.Proofs.Store.Posting

/-! # What encodings put into a store

An encoding by indicators creates truth variables and posts constraints, and does nothing else. Since variables are
numbered in the order of their creation, the indicator for an item and a bin is known from the two positions alone.
So everything that a histogram or a table adds to a store can be written down without running it.
-/

namespace StatBounds

def truthVariable (name : String) : Variable :=
  { name, domain := .finite (.range 0 1) }

namespace Store

variable {α β : Type}

/-- A store is another one with new truth variables and constraints at the end. -/
structure Extends (store after : Store) (names : List String) (constraints : List Constraint) : Prop where
  arena : after.vars.arena.toList = store.vars.arena.toList ++ names.map truthVariable
  constraints : after.constraints.toList = store.constraints.toList ++ constraints

/-- In a store that already has new variables, the operation adds more of them, and constraints, if it succeeds. -/
def Adds (base : Store) (before : List String) (operation : StoreM α) (names : List String)
    (constraints : List Constraint) (result : α) : Prop :=
  ∀ store older, base.Extends store before older → Ensures operation store
    (fun a after => a = result ∧ base.Extends after (before ++ names) (older ++ constraints)) fun _ _ => True

variable {base store after : Store} {before names : List String} {constraints : List Constraint}

/-! ## Checks that succeed -/

/-- A check before an operation that succeeds has succeeded, and has left the store alone. -/
theorem Checks.peel {check : StoreM α} {rest : α → StoreM β} {b : β} (checks : Checks check)
    (ran : (check >>= rest) store = .ok b after) : ∃ a, check store = .ok a store ∧ rest a store = .ok b after := by
  have same := checks store
  simp only [Bind.bind, EStateM.bind] at ran
  cases outcome : check store with
  | error failure middle => simp [outcome] at ran
  | ok a middle =>
      rw [Ensures, outcome] at same
      rw [outcome] at ran
      subst same
      exact ⟨a, rfl, ran⟩

theorem Checks.peelAll {step : α → StoreM PUnit} {as : List α} (each : ∀ a ∈ as, Checks (step a))
    (ran : as.forM step store = .ok ⟨⟩ after) : ∀ a ∈ as, step a store = .ok ⟨⟩ store := by
  induction as with
  | nil => simp
  | cons a as ih =>
      obtain ⟨_, first, rest⟩ := (each a (by simp)).peel ran
      exact List.forall_mem_cons.2 ⟨first, ih (fun b member => each b (by simp [member])) rest⟩

theorem Checks.orFail (check : Except Error α) : Checks (orFail check) := by
  cases check with
  | ok a => exact .pure a
  | error e => exact .fail _

theorem eq_ok_of_orFail {check : Except Error α} {a : α}
    (ran : (StatBounds.orFail check : StoreM α) store = .ok a after) :
    check = .ok a := by
  cases check with
  | ok b =>
      cases ran
      rfl
  | error e => cases ran

theorem orFail_eq_ok {check : Except Error α} {a : α} (passes : check = .ok a) :
    (StatBounds.orFail check : StoreM α) store = .ok a store := by
  rw [passes]
  rfl

theorem contains_of_checkVar {v : Var} (ran : checkVar v store = .ok () after) : store.vars.contains v = true := by
  have ensured : Ensures (checkVar v) store (fun _ _ => store.vars.contains v = true) fun _ _ => True := by
    rw [ensures_checkVar]
    cases known : store.vars.contains v with
    | true => rfl
    | false => trivial
  rwa [Ensures, ran] at ensured

theorem contains_of_checkVars {vs : List Var} (ran : checkVars vs store = .ok () after) :
    ∀ v ∈ vs, store.vars.contains v = true := by
  have each := Checks.peelAll (fun v _ => Checks.checkVar v) ran
  exact fun v member => contains_of_checkVar (each v member)

theorem get?_of_contains {v : Var} (known : store.vars.contains v = true) : ∃ x, store.vars.get? v = some x := by
  have inside : v.index < store.vars.arena.size := of_decide_eq_true known
  exact ⟨_, Array.getElem?_eq_getElem inside⟩

theorem Checks.checkSeries (task : String) (kind : SeriesKind) (series : List Var) :
    Checks (checkSeries task kind series) :=
  forM fun v _ => (checkVar v).bind fun _ => (fetch v).bind fun _ => refuse

theorem contains_of_checkSeries {task : String} {kind : SeriesKind} {series : List Var}
    (ran : checkSeries task kind series store = .ok () after) : ∀ v ∈ series, store.vars.contains v = true := by
  intro v member
  have each := Checks.peelAll (fun v _ => (Checks.checkVar v).bind fun _ => (Checks.fetch v).bind fun _ =>
    Checks.refuse) ran v member
  obtain ⟨_, known, -⟩ := (Checks.checkVar v).peel each
  exact contains_of_checkVar known

/-! ## Operations that succeed -/

/-- An operation succeeds, and something holds of the store that it leaves. -/
def Leads (operation : StoreM α) (store : Store) (a : α) (p : Store → Prop) : Prop :=
  ∃ after, operation store = .ok a after ∧ p after

theorem Leads.bind {first : StoreM α} {rest : α → StoreM β} {a : α} {b : β} {p : Store → Prop}
    (ran : first store = .ok a after) (others : Leads (rest a) after b p) : Leads (first >>= rest) store b p := by
  simpa only [Leads, Bind.bind, EStateM.bind, ran] using others

theorem Leads.mono {operation : StoreM α} {a : α} {p q : Store → Prop} (leads : Leads operation store a p)
    (weaker : ∀ after, p after → q after) : Leads operation store a q := by
  obtain ⟨after, ran, holds⟩ := leads
  exact ⟨after, ran, weaker after holds⟩

theorem Leads.pure {a : α} {p : Store → Prop} (holds : p store) : Leads (pure a) store a p :=
  ⟨store, rfl, holds⟩

theorem Leads.get {next : Store → StoreM α} {a : α} {p : Store → Prop} (tail : Leads (next store) store a p) :
    Leads (get >>= next) store a p :=
  tail

/-- Steps that succeed one after another. -/
theorem Leads.andThen {first : StoreM α} {rest : α → StoreM β} {a : α} {b : β} {p q : Store → Prop}
    (head : Leads first store a p) (tail : ∀ after, p after → Leads (rest a) after b q) :
    Leads (first >>= rest) store b q := by
  obtain ⟨after, ran, holds⟩ := head
  exact .bind ran (tail after holds)

theorem Leads.check {check : StoreM Unit} {rest : Unit → StoreM β} {b : β} {p : Store → Prop}
    (passes : check store = .ok () store) (others : Leads (rest ()) store b p) : Leads (check >>= rest) store b p :=
  .bind passes others

theorem Leads.batch {operation : StoreM α} {a : α} {p : Store → Prop}
    (leads : Leads operation store.openBatch a fun after => p after.commit) : Leads (batch operation) store a p := by
  obtain ⟨after, ran, holds⟩ := leads
  exact ⟨after.commit, by rw [Store.batch, ran]; rfl, holds⟩

def passes (operation : StoreM α) (store : Store) (test : Store → Bool) : Bool :=
  match operation store with
  | .ok _ after => test after
  | .error _ _ => false

theorem leads_of_passes {operation : StoreM Unit} {p : Store → Prop} [DecidablePred p]
    (ran : passes operation store (fun after => decide (p after)) = true) : Leads operation store () p := by
  unfold passes at ran
  split at ran
  · exact ⟨_, ‹_›, of_decide_eq_true ran⟩
  · cases ran

/-- An operation succeeds if its first step does and the others then do. -/
theorem exists_ok_bind {first : StoreM α} {rest : α → StoreM β} {a : α} {b : β} (ran : first store = .ok a after)
    (others : ∃ last, rest a after = .ok b last) : ∃ last, (first >>= rest) store = .ok b last := by
  simpa only [Bind.bind, EStateM.bind, ran] using others

def succeeds (operation : StoreM α) (store : Store) : Bool :=
  match operation store with
  | .ok _ _ => true
  | .error _ _ => false

theorem exists_ok_of_succeeds {operation : StoreM Unit} (ran : succeeds operation store = true) :
    ∃ after, operation store = .ok () after := by
  unfold succeeds at ran
  split at ran
  · exact ⟨_, ‹_›⟩
  · cases ran

/-- A batch succeeds if its operations do. -/
theorem exists_ok_batch {operation : StoreM α} {a : α} (ran : ∃ after, operation store.openBatch = .ok a after) :
    ∃ after, batch operation store = .ok a after := by
  obtain ⟨after, ran⟩ := ran
  exact ⟨after.commit, by rw [batch, ran]; rfl⟩

/-- A truth variable can be created in a batch under a name that no variable has. -/
theorem newBool_openBatch {name : String} (free : store.vars.names.contains name = false) :
    newBool name store.openBatch =
      .ok ⟨store.vars.size⟩ (store.openBatch.extended name (.finite (.range 0 1))) :=
  (addVar_eq _ _).trans (if_neg (by simp [openBatch, free]))

theorem checkVar_eq (v : Var) : checkVar v store =
    if store.vars.contains v then .ok () store
    else .error (.error (.unknownVariable v store.vars.size)) store := by
  change (if !store.vars.contains v then throw _ else Pure.pure () : StoreM Unit) store = _
  cases store.vars.contains v <;> rfl

theorem checkVars_eq_ok {vs : List Var} (known : ∀ v ∈ vs, store.vars.contains v = true) :
    checkVars vs store = .ok () store := by
  have each (v : Var) (member : v ∈ vs) (before : Store) (same : before = store) :
      Ensures (checkVar v) before (fun _ after => after = store) fun _ _ => False := by
    rw [ensures_checkVar, same, if_pos (known v member)]
  obtain ⟨_, _, ran, rfl⟩ := (ensures_forM each rfl).exists_ok
  exact ran

theorem post_eq_ok {c : Constraint} (known : ∀ v ∈ c.scope, store.vars.contains v = true) :
    post c store = .ok () (store.posting c) := by
  unfold post
  simp only [Bind.bind, EStateM.bind]
  rw [checkVars_eq_ok known]
  rfl

theorem postExpr_eq_ok {e : Expr} {target : Interval} (some : target.isEmpty = false)
    (known : ∀ v ∈ e.occurrences, store.vars.contains v = true) :
    postExpr e target store = .ok () (store.posting (.formula (.ofExpr e target))) := by
  rw [postExpr, if_neg (by simp [some])]
  exact post_eq_ok fun v member => known v (List.mem_eraseDups.1 member)

/-- An indicator can be created under a name that no variable has. -/
theorem newIndicator_eq {name : String} {atoms : List Atom}
    (free : store.vars.names.contains name = false) (some : atoms.isEmpty = false)
    (known : ∀ a ∈ atoms, store.vars.contains a.var = true) :
    newIndicator name atoms store = .ok ⟨store.vars.size⟩
      ((store.extended name (.finite (.range 0 1))).posting (.reified { indicator := ⟨store.vars.size⟩, atoms })) := by
  have created : newBool name store = .ok ⟨store.vars.size⟩ (store.extended name (.finite (.range 0 1))) :=
    (addVar_eq _ _).trans (if_neg (by simp [free]))
  have found : (store.extended name (.finite (.range 0 1))).vars.get? ⟨store.vars.size⟩ =
      Option.some { name, domain := .finite (.range 0 1) } := (get?_extended _).trans (if_pos rfl)
  have new : (store.extended name (.finite (.range 0 1))).vars.contains ⟨store.vars.size⟩ = true :=
    decide_eq_true (by rw [size_extended]; exact Nat.lt_succ_self _)
  have scope : ∀ v ∈ (Constraint.reified { indicator := ⟨store.vars.size⟩, atoms }).scope,
      (store.extended name (.finite (.range 0 1))).vars.contains v = true := by
    intro v inScope
    rcases List.mem_append.1 inScope with tested | indicator
    · obtain ⟨a, listed, rfl⟩ := List.mem_map.1 tested
      exact contains_extended (known a listed)
    · exact List.mem_singleton.1 indicator ▸ new
  have posted : postReified ⟨store.vars.size⟩ atoms (store.extended name (.finite (.range 0 1))) =
      .ok () ((store.extended name (.finite (.range 0 1))).posting
        (.reified { indicator := ⟨store.vars.size⟩, atoms })) := by
    simp only [postReified, Bind.bind, EStateM.bind, checkVar_eq, new, if_true, onVars, fetch_eq found, some]
    exact post_eq_ok scope
  simp only [newIndicator, Bind.bind, EStateM.bind, created, posted]
  rfl

/-- A step that creates an indicator under a name that no variable has. -/
theorem Leads.newIndicator {name : String} {atoms : List Atom} {rest : Var → StoreM β} {b : β} {p : Store → Prop}
    (free : store.vars.names.contains name = false) (some : atoms.isEmpty = false)
    (known : ∀ a ∈ atoms, store.vars.contains a.var = true)
    (others : Leads (rest ⟨store.vars.size⟩) ((store.extended name (.finite (.range 0 1))).posting
      (.reified { indicator := ⟨store.vars.size⟩, atoms })) b p) : Leads (newIndicator name atoms >>= rest) store b p :=
  .bind (newIndicator_eq free some known) others

/-! ## Extended stores -/

theorem Extends.refl (store : Store) : store.Extends store [] [] where
  arena := by simp
  constraints := by simp

theorem Extends.size (extended : store.Extends after names constraints) :
    after.vars.size = store.vars.size + names.length := by
  have lengths := congrArg List.length extended.arena
  simpa [Variables.size] using lengths

/-- The variables that are in one of the two stores only are the new ones. -/
theorem Extends.contains_eq_iff (extended : store.Extends after names constraints) {v : Var} :
    store.vars.contains v = after.vars.contains v ↔
      ¬ (store.vars.size ≤ v.index ∧ v.index < store.vars.size + names.length) := by
  rw [Variables.contains, Variables.contains, extended.size, decide_eq_decide]
  omega

/-- The old variables are in both stores. -/
theorem Extends.contains_eq (extended : store.Extends after names constraints) {v : Var}
    (known : store.vars.contains v = true) : store.vars.contains v = after.vars.contains v := by
  have small : v.index < store.vars.size := of_decide_eq_true known
  rw [extended.contains_eq_iff]
  omega

theorem Extends.get?_old (extended : store.Extends after names constraints) {v : Var}
    (old : v.index < store.vars.size) : after.vars.get? v = store.vars.get? v := by
  have inside : v.index < store.vars.arena.toList.length := old
  rw [Variables.get?, Variables.get?, ← Array.getElem?_toList, ← Array.getElem?_toList, extended.arena,
    List.getElem?_append_left inside]

theorem Extends.get?_new (extended : store.Extends after names constraints) {k : Nat} (new : k < names.length) :
    after.vars.get? ⟨store.vars.size + k⟩ = some (truthVariable names[k]) := by
  have behind : store.vars.arena.toList.length ≤ store.vars.size + k := Nat.le_add_right _ _
  have offset : store.vars.size + k - store.vars.arena.toList.length = k := Nat.add_sub_cancel_left _ _
  rw [Variables.get?, ← Array.getElem?_toList, extended.arena, List.getElem?_append_right behind, offset,
    List.getElem?_map, List.getElem?_eq_getElem new, Option.map_some]

theorem Extends.posting (extended : base.Extends store before constraints) (c : Constraint) :
    base.Extends (store.posting c) before (constraints ++ [c]) where
  arena := extended.arena
  constraints := by
    rw [← List.append_assoc, ← extended.constraints]
    simp [Store.posting]

/-! ## Steps -/

namespace Adds

theorem pure (a : α) : Adds base before (pure a : StoreM α) [] [] a := by
  intro store older extended
  rw [ensures_pure, List.append_nil, List.append_nil]
  exact ⟨rfl, extended⟩

theorem bind {first : StoreM α} {rest : α → StoreM β} {more : List String} {others : List Constraint} {a : α} {b : β}
    (head : Adds base before first names constraints a) (tail : Adds base (before ++ names) (rest a) more others b) :
    Adds base before (first >>= rest) (names ++ more) (constraints ++ others) b := by
  intro store older extended
  rw [ensures_bind]
  refine (head store older extended).mono ?_ fun _ _ _ => trivial
  rintro _ middle ⟨rfl, reached⟩
  rw [← List.append_assoc, ← List.append_assoc]
  exact tail middle _ reached

theorem of_posts {operation : StoreM PUnit} {c : Constraint} (posts : Posts operation c) :
    Adds base before operation [] [c] ⟨⟩ := by
  intro store older extended
  refine (posts store).mono ?_ fun _ _ _ => trivial
  rintro _ after rfl
  rw [List.append_nil]
  exact ⟨rfl, extended.posting c⟩

theorem postSum (terms : List Var) (total : Var) :
    Adds base before (postSum terms total) [] [.sum { terms, total }] ⟨⟩ :=
  of_posts (posts_post _)

theorem postExpr (e : Expr) (target : Interval) :
    Adds base before (postExpr e target) [] [.formula (.ofExpr e target)] ⟨⟩ := by
  refine of_posts ?_
  unfold Store.postExpr
  exact posts_refuse fun _ => posts_post _

/-- A new indicator gets the next position. -/
theorem newIndicator (name : String) (atoms : List Atom) :
    Adds base before (newIndicator name atoms) [name]
      [.reified { indicator := ⟨base.vars.size + before.length⟩, atoms }] ⟨base.vars.size + before.length⟩ := by
  intro store older extended
  rw [Store.newIndicator, ensures_bind, newBool, Ensures, addVar_eq]
  split_ifs
  · trivial
  · have created : base.Extends (store.extended name (.finite (.range 0 1))) (before ++ [name]) older :=
      ⟨by simp [Store.extended, extended.arena, truthVariable], extended.constraints⟩
    have posted (v : Var) : Ensures (postReified v atoms >>= fun _ => Pure.pure v)
        (store.extended name (.finite (.range 0 1)))
        (fun a after => a = v ∧ base.Extends after (before ++ [name]) (older ++ [.reified { indicator := v, atoms }]))
        fun _ _ => True := by
      rw [ensures_bind]
      refine (posts_postReified v atoms _).mono ?_ fun _ _ _ => trivial
      rintro _ after rfl
      exact ⟨rfl, created.posting _⟩
    rw [extended.size]
    exact posted _

end Adds

/-! ## Lists of steps -/

section

variable {as : List α} {position : α → Nat} {offset start : Nat}

def Numbered (position : α → Nat) (as : List α) (offset : Nat) : Prop :=
  ∀ i a, as[i]? = some a → position a = offset + i

theorem Numbered.tail {a : α} (numbered : Numbered position (a :: as) offset) :
    Numbered position as (offset + 1) := by
  intro i b found
  rw [numbered (i + 1) b (by rw [List.getElem?_cons_succ, found])]
  omega

theorem numbered_zipIdx (as : List α) : Numbered Prod.snd as.zipIdx 0 := by
  rintro i ⟨a, b⟩ found
  rw [List.getElem?_zipIdx] at found
  obtain ⟨_, -, same⟩ := Option.map_eq_some_iff.1 found
  exact (congrArg Prod.snd same).symm

theorem numbered_zip {bs : List β} (numbered : Numbered position as offset) :
    Numbered (fun pair => position pair.1) (as.zip bs) offset := by
  rintro i ⟨a, b⟩ found
  rw [List.getElem?_zip_eq_some] at found
  exact numbered i a found.1

theorem Adds.mapM {step : α → StoreM β} {names : α → List String} {constraints : α → List Constraint} {result : α → β}
    {width : Nat} (numbered : Numbered position as offset) (widths : ∀ a ∈ as, (names a).length = width)
    (steps : ∀ a ∈ as, ∀ before : List String, before.length = start + position a * width →
      Adds base before (step a) (names a) (constraints a) (result a))
    (started : before.length = start + offset * width) :
    Adds base before (as.mapM step) (as.flatMap names) (as.flatMap constraints) (as.map result) := by
  induction as generalizing offset before with
  | nil => exact .pure _
  | cons a as ih =>
      have first : position a = offset := numbered 0 a rfl
      have later : (before ++ names a).length = start + (offset + 1) * width := by
        rw [List.length_append, started, widths a (by simp)]
        ring
      have tail := ih numbered.tail (fun b member => widths b (by simp [member]))
        (fun b member => steps b (by simp [member])) later
      have rest : Adds base (before ++ names a) (do return result a :: (← as.mapM step)) (as.flatMap names ++ [])
          (as.flatMap constraints ++ []) (result a :: as.map result) := tail.bind (.pure _)
      rw [List.append_nil, List.append_nil] at rest
      rw [List.mapM_cons]
      exact (steps a (by simp) before (by rw [started, first])).bind rest

/-- Steps that create nothing. -/
theorem Adds.forM {step : α → StoreM PUnit} {constraints : α → List Constraint}
    (steps : ∀ a ∈ as, Adds base before (step a) [] (constraints a) ⟨⟩) :
    Adds base before (as.forM step) [] (as.flatMap constraints) ⟨⟩ := by
  induction as with
  | nil => exact .pure _
  | cons a as ih =>
      have tail := ih fun b member => steps b (by simp [member])
      rw [← List.append_nil before] at tail
      exact (steps a (by simp)).bind tail

end

/-! ## Grids of indicators -/

/-- The variable in a row and a column of a grid that begins at a position. -/
def gridVar (first width row column : Nat) : Var :=
  ⟨first + row * width + column⟩

theorem map_zipIdx_snd {γ : Type} (as : List α) (f : Nat → γ) :
    (as.zipIdx.map fun p => f p.2) = (List.range as.length).map f := by
  rw [List.range_eq_range', ← List.zipIdx_map_snd, List.map_map]
  rfl

theorem adds_newIndicators {as : List α} {name : α × Nat → String} {atoms : α × Nat → List Atom} {width row : Nat}
    (started : before.length = row * width) :
    Adds base before (as.zipIdx.mapM fun p => newIndicator (name p) (atoms p)) (as.zipIdx.map name)
      (as.zipIdx.map fun p => .reified { indicator := gridVar base.vars.size width row p.2, atoms := atoms p })
      ((List.range as.length).map (gridVar base.vars.size width row)) := by
  have adds : Adds base before (as.zipIdx.mapM fun p => newIndicator (name p) (atoms p))
      (as.zipIdx.flatMap fun p => [name p])
      (as.zipIdx.flatMap fun p => [.reified { indicator := gridVar base.vars.size width row p.2, atoms := atoms p }])
      (as.zipIdx.map fun p => gridVar base.vars.size width row p.2) := by
    refine Adds.mapM (numbered_zipIdx as) (fun _ _ => rfl) (fun p _ earlier later => ?_)
      (by rw [Nat.zero_mul, Nat.add_zero])
    have index : gridVar base.vars.size width row p.2 = ⟨base.vars.size + earlier.length⟩ := by
      rw [gridVar, later, started, Nat.mul_one, Nat.add_assoc]
    rw [index]
    exact .newIndicator _ _
  rwa [← List.map_eq_flatMap, ← List.map_eq_flatMap, map_zipIdx_snd] at adds

/-- What an operation adds inside a batch, the batch adds. -/
theorem Adds.batch {operation : StoreM PUnit} (adds : Adds store.openBatch [] operation names constraints ⟨⟩)
    (ran : batch operation store = .ok ⟨⟩ after) : store.Extends after names constraints := by
  have added := adds store.openBatch [] (.refl _)
  rw [Store.batch] at ran
  cases outcome : operation store.openBatch with
  | error failure last => simp [outcome] at ran
  | ok _ last =>
      rw [Ensures, outcome] at added
      obtain ⟨-, extended⟩ := added
      obtain rfl : last.commit = after := by simpa [outcome, closeBatch] using ran
      exact ⟨extended.arena, extended.constraints⟩

end Store

end StatBounds
