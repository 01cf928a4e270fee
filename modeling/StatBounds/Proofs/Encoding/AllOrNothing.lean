import StatBounds.Proofs.BinCount.Overflow
import StatBounds.Proofs.Encoding.Layout
import StatBounds.Proofs.Store.Shrinking

/-! # Decompositions are all or nothing

A statistic, a histogram, a table, an inverse, a grid or bin counts are posted in one go. If anything is wrong, whether
it is found at the start or halfway through, the store stays what it was. Otherwise all there was stays what it was, up
to the output of some statistics, and what is new looks at no variables but those given and those created.
-/

namespace StatBounds

namespace Store

variable {α β : Type} {store : Store}

/-! ## Looking at a store -/

/-- The operation leaves the store alone. It fails only by reporting an error, and else something is known. -/
def Looks (operation : StoreM α) (store : Store) (known : α → Prop) : Prop :=
  Ensures operation store (fun a after => after = store ∧ known a) fun failure after => after = store ∧ failure.Reported

namespace Looks

variable {operation : StoreM α} {known known' : α → Prop}

theorem pure {a : α} (holds : known a) : Looks (pure a) store known :=
  ⟨rfl, holds⟩

theorem fail (e : Error) : Looks (throw (.error e)) store known :=
  ⟨rfl, trivial⟩

theorem bind {rest : α → StoreM β} {known' : β → Prop} (head : Looks operation store known)
    (tail : ∀ a, known a → Looks (rest a) store known') : Looks (operation >>= rest) store known' := by
  refine ensures_bind.2 (head.mono ?_ fun _ _ fails => fails)
  rintro a after ⟨rfl, holds⟩
  exact tail a holds

theorem mono (looks : Looks operation store known) (weaker : ∀ a, known a → known' a) : Looks operation store known' :=
  Ensures.mono looks (fun a _ both => ⟨both.1, weaker a both.2⟩) fun _ _ fails => fails

theorem check {condition : Prop} [Decidable condition] {e : Error} :
    Looks (if condition then throw (.error e) else Pure.pure ⟨⟩ : StoreM PUnit) store fun _ => ¬ condition := by
  split_ifs with refused
  · exact .fail e
  · exact .pure refused

theorem refuse {condition : Prop} [Decidable condition] {e : Error} {rest : PUnit → StoreM α}
    (tail : ¬ condition → Looks (rest ⟨⟩) store known) :
    Looks (if condition then throw (.error e) >>= rest else rest ⟨⟩) store known := by
  split_ifs with refused
  · exact ⟨rfl, trivial⟩
  · exact tail refused

theorem orFail (check : Except Error α) : Looks (StatBounds.orFail check) store fun a => check = .ok a := by
  cases check with
  | ok a => exact .pure rfl
  | error e => exact .fail e

theorem get {next : Store → StoreM α} (tail : Looks (next store) store known) : Looks (get >>= next) store known :=
  tail

theorem forM {step : α → StoreM PUnit} {as : List α} {fact : α → Prop}
    (each : ∀ a ∈ as, Looks (step a) store fun _ => fact a) : Looks (as.forM step) store fun _ => ∀ a ∈ as, fact a := by
  induction as with
  | nil => exact .pure (by simp)
  | cons a as ih =>
      refine (each a (by simp)).bind fun _ here => ?_
      exact (ih fun b member => each b (by simp [member])).mono fun _ others => List.forall_mem_cons.2 ⟨here, others⟩

theorem checkVar (v : Var) : Looks (checkVar v) store fun _ => store.vars.contains v = true := by
  rw [Looks, ensures_checkVar]
  split_ifs with known
  · exact ⟨rfl, known⟩
  · exact ⟨rfl, trivial⟩

theorem checkVars (vs : List Var) : Looks (checkVars vs) store fun _ => ∀ v ∈ vs, store.vars.contains v = true :=
  forM fun v _ => checkVar v

theorem fetch {v : Var} (known : store.vars.contains v = true) :
    Looks (onVars (Variables.fetch v)) store fun _ => True :=
  ensures_onVars.2 (ensures_fetch (fun _ _ => ⟨rfl, trivial⟩) fun missing =>
    absurd missing (get?_ne_none known))

theorem checkSeries (task : String) (kind : SeriesKind) (series : List Var) :
    Looks (checkSeries task kind series) store fun _ => ∀ v ∈ series, store.vars.contains v = true :=
  forM fun v _ => (checkVar v).bind fun _ known => (fetch known).bind fun _ _ => check.mono fun _ _ => known

theorem checkObservations (statistic : Statistic) (vs : List Var) :
    Looks (checkObservations statistic vs) store fun _ => True := by
  unfold Store.checkObservations
  exact refuse fun _ => (checkVars vs).mono fun _ _ => trivial

theorem checkOutput (statistic : Statistic) (output : Var) : Looks (checkOutput statistic output) store fun _ => True :=
  (checkVar output).bind fun _ known => (fetch known).bind fun _ _ => check.mono fun _ _ => trivial

theorem varianceBound (vs : List Var) : Looks (varianceBound vs) store fun _ => True :=
  get (refuse fun _ => (orFail _).mono fun _ _ => trivial)

end Looks

/-! ## Growing -/

section

variable (base : Store) (inside : Var → Prop) (output : Option Var)

def Near (v : Var) : Prop :=
  inside v ∨ base.vars.size ≤ v.index

/-- All variables up to the output are what they were, all constraints are still there, and the newer ones look at
    given and newer variables only. -/
structure Grown (after : Store) : Prop where
  more : base.vars.size ≤ after.vars.size
  older : ∀ v, v.index < base.vars.size → output ≠ some v → after.vars.get? v = base.vars.get? v
  constraints : ∃ newer, after.constraints.toList = base.constraints.toList ++ newer ∧
    ∀ c ∈ newer, ∀ v ∈ c.scope, base.Near inside v

/-- The operation only lets the store grow, and fails only by reporting an error. -/
def Grows (operation : StoreM α) (store : Store) (found : α → Prop) : Prop :=
  Ensures operation store (fun a after => base.Grown inside output after ∧ found a) fun failure _ => failure.Reported

end

section

variable {base : Store} {inside : Var → Prop} {output : Option Var}

theorem Grown.refl (store : Store) : store.Grown inside output store :=
  ⟨le_rfl, fun _ _ _ => rfl, [], by simp, by simp⟩

theorem Grown.contains (grown : base.Grown inside output store) {v : Var} (known : base.vars.contains v = true) :
    store.vars.contains v = true := by
  have small : v.index < base.vars.size := of_decide_eq_true known
  exact decide_eq_true (small.trans_le grown.more)

theorem Grown.posting (grown : base.Grown inside output store) {c : Constraint}
    (near : ∀ v ∈ c.scope, base.Near inside v) : base.Grown inside output (store.posting c) := by
  obtain ⟨newer, same, older⟩ := grown.constraints
  refine ⟨grown.more, grown.older, newer ++ [c], ?_, fun d member => ?_⟩
  · rw [← List.append_assoc, ← same]
    exact Array.toList_push
  · rcases List.mem_append.1 member with earlier | last
    · exact older d earlier
    · exact List.mem_singleton.1 last ▸ near

namespace Grows

variable {operation : StoreM α} {found : α → Prop}

theorem pure (grown : base.Grown inside output store) {a : α} (holds : found a) :
    base.Grows inside output (pure a) store found :=
  ⟨grown, holds⟩

theorem bind {rest : α → StoreM β} {found' : β → Prop} (head : base.Grows inside output operation store found)
    (tail : ∀ a after, base.Grown inside output after → found a → base.Grows inside output (rest a) after found') :
    base.Grows inside output (operation >>= rest) store found' :=
  ensures_bind.2 (Ensures.mono head (fun a after both => tail a after both.1 both.2) fun _ _ fails => fails)

theorem forget (grows : base.Grows inside output operation store found) :
    base.Grows inside output operation store fun _ => True :=
  Ensures.mono grows (fun _ _ both => ⟨both.1, trivial⟩) fun _ _ fails => fails

theorem of_looks {rest : α → StoreM β} {known : α → Prop} {found' : β → Prop} (head : Looks operation store known)
    (tail : ∀ a, known a → base.Grows inside output (rest a) store found') :
    base.Grows inside output (operation >>= rest) store found' := by
  refine ensures_bind.2 (Ensures.mono head ?_ fun _ _ fails => fails.2)
  rintro a after ⟨rfl, holds⟩
  exact tail a holds

theorem discard (grows : base.Grows inside output operation store found) :
    base.Grows inside output (discard operation) store fun _ => True :=
  ensures_discard.2 grows.forget

theorem forM {step : α → StoreM PUnit} {as : List α} (grown : base.Grown inside output store)
    (each : ∀ a ∈ as, ∀ before, base.Grown inside output before →
      base.Grows inside output (step a) before fun _ => True) :
    base.Grows inside output (as.forM step) store fun _ => True := by
  have step (a : α) (member : a ∈ as) (before : Store) (grown : base.Grown inside output before) :
      Ensures (step a) before (fun _ => base.Grown inside output) fun failure _ => failure.Reported :=
    (each a member before grown).mono (fun _ _ both => both.1) fun _ _ fails => fails
  exact (ensures_forM step grown).mono (fun _ _ grown => ⟨grown, trivial⟩) fun _ _ fails => fails

theorem mapM {step : α → StoreM β} {as : List α} {found' : β → Prop} (grown : base.Grown inside output store)
    (each : ∀ a ∈ as, ∀ before, base.Grown inside output before → base.Grows inside output (step a) before found') :
    base.Grows inside output (as.mapM step) store fun bs => ∀ b ∈ bs, found' b := by
  induction as generalizing store with
  | nil => exact .pure grown (by simp)
  | cons a as ih =>
      rw [List.mapM_cons]
      refine (each a (by simp) store grown).bind fun b after grown here => ?_
      refine (ih grown fun a member => each a (by simp [member])).bind fun bs last grown others => ?_
      exact .pure grown (List.forall_mem_cons.2 ⟨here, others⟩)

/-! ## Single steps -/

theorem addVar (grown : base.Grown inside output store) (name : String) (domain : Domain) :
    base.Grows inside output (addVar name domain) store fun v => base.vars.size ≤ v.index := by
  rw [Grows, Ensures, addVar_eq]
  split_ifs
  · trivial
  · refine ⟨⟨?_, fun v small other => ?_, grown.constraints⟩, grown.more⟩
    · rw [size_extended]
      exact grown.more.trans (Nat.le_succ _)
    · rw [get?_extended, if_neg (small.trans_le grown.more).ne, grown.older v small other]

theorem newReal (grown : base.Grown inside output store) (name : String) (lo hi precision : Float) :
    base.Grows inside output (newReal name lo hi precision) store fun v => base.vars.size ≤ v.index := by
  obtain ⟨e, same⟩ | ⟨_, domain, -, same⟩ := creates_newReal name lo hi precision
  · rw [same]
    trivial
  · rw [same]
    exact addVar grown _ domain

theorem post (grown : base.Grown inside output store) {c : Constraint} (near : ∀ v ∈ c.scope, base.Near inside v) :
    base.Grows inside output (post c) store fun _ => True :=
  of_looks (Looks.checkVars c.scope) fun _ _ => ⟨grown.posting near, trivial⟩

theorem postExpr (grown : base.Grown inside output store) {e : Expr} (near : ∀ v ∈ e.occurrences, base.Near inside v)
    (target : Interval) : base.Grows inside output (postExpr e target) store fun _ => True := by
  unfold Store.postExpr
  split_ifs
  · trivial
  · exact post grown fun v member => near v (List.mem_eraseDups.1 member)

theorem postRelation (grown : base.Grown inside output store) {lhs rhs : Expr}
    (left : ∀ v ∈ lhs.occurrences, base.Near inside v) (right : ∀ v ∈ rhs.occurrences, base.Near inside v) :
    base.Grows inside output (postRelation lhs rhs) store fun _ => True :=
  postExpr grown (fun v member => (List.mem_append.1 member).elim (left v) (right v)) _

theorem postSum (grown : base.Grown inside output store) {terms : List Var} {total : Var}
    (near : ∀ v ∈ terms, base.Near inside v) (last : base.Near inside total) :
    base.Grows inside output (postSum terms total) store fun _ => True :=
  post grown fun v member => (List.mem_append.1 member).elim (near v) fun same => List.mem_singleton.1 same ▸ last

theorem newIndicator (grown : base.Grown inside output store) (name : String) {atoms : List Atom}
    (near : ∀ a ∈ atoms, base.Near inside a.var) :
    base.Grows inside output (newIndicator name atoms) store fun v => base.vars.size ≤ v.index := by
  refine (addVar grown name _).bind fun v after grown new => ?_
  have posted : base.Grows inside output (postReified v atoms) after fun _ => True := by
    refine of_looks (Looks.checkVar v) fun _ known => of_looks (Looks.fetch known) fun x _ => ?_
    split_ifs
    · trivial
    · trivial
    · trivial
    · refine post grown fun w member => (List.mem_append.1 member).elim (fun tested => ?_) fun same => ?_
      · obtain ⟨a, listed, rfl⟩ := List.mem_map.1 tested
        exact near a listed
      · exact .inr (List.mem_singleton.1 same ▸ new)
  exact posted.bind fun _ last grown _ => .pure grown new

theorem narrow (grown : base.Grown inside output store) {v : Var} (given : output = some v) (onto : Interval) :
    base.Grows inside output (narrow v onto) store fun _ => True := by
  refine of_looks (Looks.checkVar v) fun _ known => ensures_onVars.2 ?_
  have within := (narrowsWithin_narrow rfl onto : NarrowsWithin (v = ·) (Variables.narrow v onto)) store.vars
  have plain := FailsPlainly.narrow v onto store.vars
  have elsewhere (w : Var) (other : w ≠ v) : Ensures (Variables.narrow v onto) store.vars
      (fun _ after => after.get? w = store.vars.get? w) fun _ _ => True :=
    (narrow_elsewhere other).mono (fun _ _ same => same) fun _ _ _ => trivial
  unfold Ensures at within plain elsewhere ⊢
  cases ran : Variables.narrow v onto store.vars with
  | ok changed after =>
      simp only [ran] at within elsewhere
      refine ⟨⟨within.size ▸ grown.more, fun w small other => ?_, grown.constraints⟩, trivial⟩
      have apart : w ≠ v := fun same => other (same ▸ given)
      exact (elsewhere w apart).trans (grown.older w small other)
  | error failure after =>
      rw [ran] at within plain
      exact Failure.reported_of_plain plain (within.2 fun w same => same ▸ known)

end Grows

end

/-! ## All or nothing -/

/-- If the operation succeeds, then it has only let the store grow, and if it fails, then the store is the same as
    before. It fails by reporting an error, unless numbers are too large. -/
def AllOrNothing (operation : StoreM α) (store : Store) (inside : Var → Prop) (output : Option Var) (large : Prop) :
    Prop :=
  Ensures operation store (fun _ after => store.Grown inside output after)
    fun failure after => after.Same store ∧ (failure.Reported ∨ large ∧ failure = .fault .overflow)

section

variable {inside : Var → Prop} {output : Option Var} {large : Prop}

namespace AllOrNothing

variable {operation : StoreM α} {known : α → Prop}

theorem get {next : Store → StoreM α} (tail : AllOrNothing (next store) store inside output large) :
    AllOrNothing (get >>= next) store inside output large :=
  tail

theorem of_looks {rest : α → StoreM β} (head : Looks operation store known)
    (tail : ∀ a, known a → AllOrNothing (rest a) store inside output large) :
    AllOrNothing (operation >>= rest) store inside output large := by
  refine ensures_bind.2 (Ensures.mono head ?_ ?_)
  · rintro a after ⟨rfl, holds⟩
    exact tail a holds
  · rintro failure after ⟨rfl, reported⟩
    exact ⟨.refl after, .inl reported⟩

theorem refuse {condition : Prop} [Decidable condition] {e : Error} {rest : PUnit → StoreM α}
    (tail : AllOrNothing (rest ⟨⟩) store inside output large) :
    AllOrNothing (if condition then throw (.error e) >>= rest else rest ⟨⟩) store inside output large := by
  split_ifs
  · exact ⟨.refl store, .inl trivial⟩
  · exact tail

theorem map (whole : AllOrNothing operation store inside output large) (f : α → β) :
    AllOrNothing (operation >>= fun a => pure (f a)) store inside output large :=
  ensures_bind.2 whole

/-- A batch of operations that let the store grow is all or nothing. -/
theorem batch (consistent : store.Consistent) (procedure : Procedure operation)
    (grows : ∀ before, store.Grown inside output before →
      store.Grows inside output operation before fun _ => True) :
    AllOrNothing (batch operation) store inside output large := by
  have opened : store.Grown inside output store.openBatch := { Grown.refl store with }
  have kept := procedure.ensures store.openBatch consistent.openBatch
  have grown := grows store.openBatch opened
  unfold Grows AllOrNothing Ensures at *
  rw [Store.batch]
  cases ran : operation store.openBatch with
  | ok a after =>
      rw [ran] at grown
      exact { grown.1 with }
  | error failure after =>
      rw [ran] at kept grown
      cases failure with
      | fault _ => exact grown.elim
      | error e =>
          dsimp only [closeBatch]
          rw [rollback_eq consistent kept.1 (kept.2 e rfl)]
          exact ⟨{ Same.refl store with }, .inl trivial⟩

end AllOrNothing

end

/-! ## Statistics -/

end Store

theorem Expr.mem_of_mem_sumOf {vs : List Var} {v : Var} (member : v ∈ (Store.sumOf vs).occurrences) : v ∈ vs := by
  obtain ⟨e, listed, occurs⟩ := exists_of_mem_total member
  obtain ⟨w, inside, rfl⟩ := List.mem_map.1 listed
  exact List.mem_singleton.1 occurs ▸ inside

/-- The variables of a table. -/
def ContingencyTable.vars (t : ContingencyTable) : List Var :=
  t.first ++ t.second ++ t.cells.flatten ++ t.rowMarginals ++ t.columnMarginals

namespace Store

section

variable {base : Store} {inside : Var → Prop} {output : Option Var} {vs : List Var} {v : Var}

namespace Grows

theorem get {next : Store → StoreM α} {found : α → Prop} (tail : base.Grows inside output (next store) store found) :
    base.Grows inside output (get >>= next) store found :=
  tail

theorem linkMean (grown : base.Grown inside output store) (near : ∀ w ∈ vs, base.Near inside w)
    (target : base.Near inside v) : base.Grows inside output (linkMean vs v) store fun _ => True := by
  refine postRelation grown (fun w member => List.mem_singleton.1 member ▸ target) fun w member => ?_
  rcases List.mem_append.1 member with term | constant
  · exact near w (Expr.mem_of_mem_sumOf term)
  · exact absurd constant (by simp [Expr.occurrences])

theorem linkVariance {mean : Var} (grown : base.Grown inside output store) (near : ∀ w ∈ vs, base.Near inside w)
    (middle : base.Near inside mean) (target : base.Near inside v) :
    base.Grows inside output (linkVariance vs mean v) store fun _ => True := by
  refine postRelation grown (fun w member => List.mem_singleton.1 member ▸ target) fun w member => ?_
  rcases List.mem_append.1 member with square | constant
  · obtain ⟨e, listed, occurs⟩ := Expr.exists_of_mem_total square
    obtain ⟨u, term, rfl⟩ := List.mem_map.1 listed
    rcases List.mem_append.1 occurs with left | right
    · exact List.mem_singleton.1 left ▸ near u term
    · exact List.mem_singleton.1 right ▸ middle
  · exact absurd constant (by simp [Expr.occurrences])

theorem linkStandardError {variance : Var} (grown : base.Grown inside output store) (n : Nat)
    (near : base.Near inside variance) (target : base.Near inside v) :
    base.Grows inside output (linkStandardError n variance v) store fun _ => True := by
  refine postRelation grown (fun w member => List.mem_singleton.1 member ▸ target) fun w member => ?_
  rcases List.mem_append.1 member with given | constant
  · exact List.mem_singleton.1 given ▸ near
  · exact absurd constant (by simp [Expr.occurrences])

/-- A new mean is a newer variable, and so are a new variance and a new standard error. -/
theorem newMean (grown : base.Grown inside output store) (near : ∀ w ∈ vs, base.Near inside w) (name : String)
    (precision : Float) :
    base.Grows inside output (newMean name vs precision) store fun v => base.vars.size ≤ v.index :=
  get ((newReal grown _ _ _ _).bind fun _ _ grown new => (linkMean grown near (.inr new)).bind fun _ _ grown _ =>
    .pure grown new)

theorem newVariance (grown : base.Grown inside output store) (near : ∀ w ∈ vs, base.Near inside w) (name : String)
    (precision : Float) :
    base.Grows inside output (newVariance name vs precision) store fun v => base.vars.size ≤ v.index :=
  of_looks (Looks.varianceBound vs) fun _ _ => (newMean grown near _ precision).bind fun _ _ grown mean =>
    (newReal grown _ _ _ _).bind fun _ _ grown new => (linkVariance grown near (.inr mean) (.inr new)).bind
      fun _ _ grown _ => .pure grown new

theorem newStandardError (grown : base.Grown inside output store) (near : ∀ w ∈ vs, base.Near inside w) (name : String)
    (precision : Float) :
    base.Grows inside output (newStandardError name vs precision) store fun v => base.vars.size ≤ v.index :=
  of_looks (Looks.varianceBound vs) fun _ _ => (newVariance grown near _ precision).bind fun _ _ grown variance =>
    (newReal grown _ _ _ _).bind fun _ _ grown new => (linkStandardError grown _ (.inr variance) (.inr new)).bind
      fun _ _ grown _ => .pure grown new

end Grows

end

section

variable {large : Prop} {vs first second : List Var} {supposed output : Var}

theorem allOrNothing_encodeMean (consistent : store.Consistent) (precision : Float) :
    AllOrNothing (encodeMean vs output precision) store (· ∈ output :: vs) (some output) large := by
  refine .of_looks (.orFail _) fun _ _ => .of_looks (.checkObservations _ vs) fun _ _ =>
    .of_looks (.checkOutput _ output) fun _ _ => .get (.batch consistent ?_ fun before grown => ?_)
  · exact (Procedure.narrow output _).discard.bind fun _ => .postRelation _ _
  · exact (Grows.narrow grown rfl _).discard.bind fun _ after grown _ =>
      .linkMean grown (fun w member => .inl (by simp [member])) (.inl (by simp))

theorem allOrNothing_encodeVariance (consistent : store.Consistent) (name : String) (precision : Float) :
    AllOrNothing (encodeVariance name vs output precision) store (· ∈ output :: vs) (some output) large := by
  refine .of_looks (.orFail _) fun _ _ => .of_looks (.checkObservations _ vs) fun _ _ =>
    .of_looks (.checkOutput _ output) fun _ _ => .of_looks (.varianceBound vs) fun _ _ =>
    .batch consistent ?_ fun before grown => ?_
  · exact (Procedure.narrow output _).discard.bind fun _ => (Procedure.newMean _ vs precision).bind fun _ =>
      .postRelation _ _
  · have near (w : Var) (member : w ∈ vs) : store.Near (· ∈ output :: vs) w := .inl (by simp [member])
    exact (Grows.narrow grown rfl _).discard.bind fun _ _ grown _ => (Grows.newMean grown near _ precision).bind
      fun _ _ grown mean => .linkVariance grown near (.inr mean) (.inl (by simp))

theorem allOrNothing_encodeStandardError (consistent : store.Consistent) (name : String) (precision : Float) :
    AllOrNothing (encodeStandardError name vs output precision) store (· ∈ output :: vs) (some output) large := by
  refine .of_looks (.orFail _) fun _ _ => .of_looks (.checkObservations _ vs) fun _ _ =>
    .of_looks (.checkOutput _ output) fun _ _ => .of_looks (.varianceBound vs) fun _ _ =>
    .batch consistent ?_ fun before grown => ?_
  · exact (Procedure.narrow output _).discard.bind fun _ => (Procedure.newVariance _ vs precision).bind fun _ =>
      .postRelation _ _
  · have near (w : Var) (member : w ∈ vs) : store.Near (· ∈ output :: vs) w := .inl (by simp [member])
    exact (Grows.narrow grown rfl _).discard.bind fun _ _ grown _ => (Grows.newVariance grown near _ precision).bind
      fun _ _ grown variance => .linkStandardError grown _ (.inr variance) (.inl (by simp))

theorem allOrNothing_encodeTStatistic (consistent : store.Consistent) (name : String) (precision : Float) :
    AllOrNothing (encodeTStatistic name vs supposed output precision) store (· ∈ supposed :: output :: vs)
      none large := by
  have bounded : Looks (discard (varianceBound vs)) store fun _ => True :=
    ensures_discard.2 ((Looks.varianceBound vs).mono fun _ _ => trivial)
  refine .of_looks (.orFail _) fun _ _ => .of_looks (.checkObservations _ vs) fun _ _ =>
    .of_looks (.checkVar supposed) fun _ _ => .of_looks (.checkOutput _ output) fun _ _ => .of_looks bounded fun _ _ =>
    .batch consistent ?_ fun before grown => ?_
  · exact (Procedure.newMean _ vs precision).bind fun _ => (Procedure.newStandardError _ vs precision).bind fun _ =>
      .postRelation _ _
  · have near (w : Var) (member : w ∈ vs) : store.Near (· ∈ supposed :: output :: vs) w := .inl (by simp [member])
    refine (Grows.newMean grown near _ precision).bind fun mean _ grown newMean =>
      (Grows.newStandardError grown near _ precision).bind fun error _ grown newError =>
      .postRelation grown (fun w member => ?_) fun w member => ?_
    · rcases List.mem_append.1 member with given | new
      · exact .inl (by simp [List.mem_singleton.1 given])
      · exact .inr (List.mem_singleton.1 new ▸ newError)
    · rcases List.mem_append.1 member with new | given
      · exact .inr (List.mem_singleton.1 new ▸ newMean)
      · exact .inl (by simp [List.mem_singleton.1 given])

theorem allOrNothing_encodeFisherRatio (consistent : store.Consistent) (name : String) (precision : Float) :
    AllOrNothing (encodeFisherRatio name first second output precision) store (· ∈ output :: (first ++ second))
      (some output) large := by
  have bounded (vs : List Var) : Looks (discard (varianceBound vs)) store fun _ => True :=
    ensures_discard.2 ((Looks.varianceBound vs).mono fun _ _ => trivial)
  refine .of_looks (.orFail _) fun _ _ => .of_looks (.checkObservations _ first) fun _ _ =>
    .of_looks (.checkObservations _ second) fun _ _ => .of_looks (.checkOutput _ output) fun _ _ =>
    .of_looks (bounded first) fun _ _ => .of_looks (bounded second) fun _ _ =>
    .batch consistent ?_ fun before grown => ?_
  · exact (Procedure.narrow output _).discard.bind fun _ => (Procedure.newVariance _ first precision).bind fun _ =>
      (Procedure.newVariance _ second precision).bind fun _ => .postRelation _ _
  · have near (w : Var) (member : w ∈ first ++ second) : store.Near (· ∈ output :: (first ++ second)) w :=
      .inl (List.mem_cons_of_mem _ member)
    refine (Grows.narrow grown rfl _).discard.bind fun _ _ grown _ =>
      (Grows.newVariance grown (fun w member => near w (List.mem_append_left _ member)) _ precision).bind
      fun one _ grown newOne =>
      (Grows.newVariance grown (fun w member => near w (List.mem_append_right _ member)) _ precision).bind
      fun two _ grown newTwo => .postRelation grown (fun w member => ?_) fun w member => ?_
    · rcases List.mem_append.1 member with given | new
      · exact .inl (by simp [List.mem_singleton.1 given])
      · exact .inr (List.mem_singleton.1 new ▸ newTwo)
    · exact .inr (List.mem_singleton.1 member ▸ newOne)

end

/-! ## Counts -/

theorem mem_membership {kind : SeriesKind} {v : Var} {bin : Bin} {a : Atom} (member : a ∈ kind.membership v bin) :
    a.var = v := by
  cases kind with
  | discrete =>
      rcases List.mem_cons.1 member with rfl | member
      · rfl
      · exact List.mem_singleton.1 member ▸ rfl
  | continuous => exact List.mem_singleton.1 member ▸ rfl

section

variable {base : Store} {inside : Var → Prop} {output : Option Var} {v : Var}

/-- The indicators of an item are newer variables. -/
theorem Grows.newHistogramRow (grown : base.Grown inside output store) (near : base.Near inside v) (kind : SeriesKind)
    (name : String) (bins : List Bin) (item : Nat) :
    base.Grows inside output (newHistogramRow kind name bins item v) store
      fun row => ∀ w ∈ row, base.vars.size ≤ w.index :=
  (Grows.mapM grown fun _ _ _ grown => .newIndicator grown _ fun _ member => mem_membership member ▸ near).bind
    fun _ _ grown new => (Grows.postExpr grown (fun w member => .inr (new w (Expr.mem_of_mem_sumOf member))) _).bind
      fun _ _ grown _ => .pure grown new

/-- The indicators of a cell are newer variables. -/
theorem Grows.newCell {samples : List (Var × Var)} {count : Var} (grown : base.Grown inside output store)
    (near : ∀ sample ∈ samples, base.Near inside sample.1 ∧ base.Near inside sample.2)
    (counted : base.Near inside count)
    (kind : SeriesKind) (name : String) (row column : Bin × Nat) :
    base.Grows inside output (newCell kind name samples count row column) store
      fun cell => ∀ w ∈ cell, base.vars.size ≤ w.index := by
  refine (Grows.mapM grown fun ⟨sample, i⟩ listed _ grown => .newIndicator grown _ fun a member => ?_).bind
    fun _ _ grown new => (Grows.postSum grown (fun w member => .inr (new w member)) counted).bind
      fun _ _ grown _ => .pure grown new
  have both := near sample (List.fst_mem_of_mem_zipIdx listed)
  rcases List.mem_append.1 member with first | second
  · exact mem_membership first ▸ both.1
  · exact mem_membership second ▸ both.2

end

theorem allOrNothing_encodeHistogram (consistent : store.Consistent) (kind : SeriesKind) (name : String)
    {series counts : List Var} (bins : List Bin) {large : Prop} :
    AllOrNothing (encodeHistogram kind name series bins counts) store (· ∈ series ++ counts) none large := by
  refine .of_looks (.orFail _) fun _ _ => .refuse (.of_looks (.checkSeries _ kind series) fun _ _ =>
    .of_looks (.checkVars counts) fun _ _ => .batch consistent ?_ fun before grown => ?_)
  · exact (Procedure.mapM fun _ _ => .newHistogramRow _ _ _ _ _).bind fun _ => .forM fun _ _ => .postSum _ _
  · have row (p : Var × Nat) (listed : p ∈ series.zipIdx) (before : Store)
        (grown : store.Grown (· ∈ series ++ counts) none before) :=
      Grows.newHistogramRow grown (.inl (List.mem_append_left counts (List.fst_mem_of_mem_zipIdx listed))) kind name
        bins p.2
    refine (Grows.mapM grown row).bind fun rows _ grown new => .forM grown fun p listed _ grown =>
      .postSum grown (fun w member => ?_) ?_
    · obtain ⟨row, member, found⟩ := List.mem_filterMap.1 member
      exact .inr (new row member w (List.mem_of_getElem? found))
    · exact .inl (List.mem_append_right _ (List.fst_mem_of_mem_zipIdx listed))

theorem allOrNothing_encodeContingency (consistent : store.Consistent) (kind : SeriesKind) (name : String)
    (t : ContingencyTable) (bins : ContingencyBins) {large : Prop} :
    AllOrNothing (encodeContingency kind name t bins) store (· ∈ t.vars) none large := by
  refine .of_looks (.orFail _) fun _ _ => .of_looks (.checkSeries _ kind _) fun _ known₁ =>
    .of_looks (.checkSeries _ kind _) fun _ known₂ =>
    .of_looks (.forM fun row _ => .checkVars row) fun _ _ => .of_looks (.checkVars _) fun _ _ =>
    .of_looks (.checkVars _) fun _ _ => .batch consistent ?_ fun before grown => ?_
  · exact (Procedure.newCells kind name t bins).bind fun cells =>
      (Procedure.forM fun _ _ => .postSample bins cells _ _ _).bind fun _ =>
      (Procedure.forM fun _ _ => .postSum _ _).bind fun _ => .forM fun _ _ => .postSum _ _
  · have given (v : Var) (member : v ∈ t.first ∨ v ∈ t.second ∨ v ∈ t.cells.flatten ∨ v ∈ t.rowMarginals ∨
        v ∈ t.columnMarginals) : store.Near (· ∈ t.vars) v :=
      .inl (by simpa only [ContingencyTable.vars, List.mem_append, or_assoc] using member)
    have cell {row : Bin × Nat} {counts : List Var} (listed : (row, counts) ∈ bins.rows.zipIdx.zip t.cells)
        {w : Var} (member : w ∈ counts) : store.Near (· ∈ t.vars) w :=
      given w (.inr (.inr (.inl (List.mem_flatten.2 ⟨counts, (List.of_mem_zip listed).2, member⟩))))
    have sample (pair : Var × Var) (listed : pair ∈ t.first.zip t.second) :
        store.Near (· ∈ t.vars) pair.1 ∧ store.Near (· ∈ t.vars) pair.2 :=
      ⟨given _ (.inl (List.of_mem_zip listed).1), given _ (.inr (.inl (List.of_mem_zip listed).2))⟩
    have cells : store.Grows (· ∈ t.vars) none (newCells kind name t bins) before
        fun cells => ∀ cell ∈ cells, ∀ w ∈ cell, store.vars.size ≤ w.index := by
      refine (Grows.mapM grown fun ⟨row, counts⟩ listed _ grown =>
        Grows.mapM grown fun ⟨column, count⟩ listed' _ grown =>
        Grows.newCell grown sample (cell listed (List.of_mem_zip listed').2) kind name row column).bind
        fun rows _ grown new => .pure grown fun one member => ?_
      obtain ⟨row, listed, inside⟩ := List.mem_flatten.1 member
      exact new row listed one inside
    have samples {cells : List (List Var)} (new : ∀ cell ∈ cells, ∀ w ∈ cell, store.vars.size ≤ w.index)
        (p : (Var × Var) × Nat) (listed : p ∈ (t.first.zip t.second).zipIdx) (before : Store)
        (grown : store.Grown (· ∈ t.vars) none before) :
        store.Grows (· ∈ t.vars) none (postSample bins cells p.2 p.1.1 p.1.2) before fun _ => True := by
      have inside := List.of_mem_zip (List.fst_mem_of_mem_zipIdx listed)
      refine .of_looks (.fetch (grown.contains (known₁ _ inside.1))) fun _ _ =>
        .of_looks (.fetch (grown.contains (known₂ _ inside.2))) fun _ _ => .postExpr grown (fun w member => ?_) _
      obtain ⟨one, member, found⟩ := List.mem_filterMap.1 (Expr.mem_of_mem_sumOf member)
      exact .inr (new one member w (List.mem_of_getElem? found))
    have rows (p : List Var × Var) (listed : p ∈ t.cells.zip t.rowMarginals) (before : Store)
        (grown : store.Grown (· ∈ t.vars) none before) :
        store.Grows (· ∈ t.vars) none (postSum p.1 p.2) before fun _ => True := by
      have inside := List.of_mem_zip listed
      exact .postSum grown (fun w member => given w (.inr (.inr (.inl (List.mem_flatten.2 ⟨p.1, inside.1, member⟩)))))
        (given _ (.inr (.inr (.inr (.inl inside.2)))))
    have columns (p : Var × Nat) (listed : p ∈ t.columnMarginals.zipIdx) (before : Store)
        (grown : store.Grown (· ∈ t.vars) none before) :
        store.Grows (· ∈ t.vars) none (postSum (t.column p.2) p.1) before fun _ => True := by
      refine .postSum grown (fun w member => ?_)
        (given _ (.inr (.inr (.inr (.inr (List.fst_mem_of_mem_zipIdx listed))))))
      obtain ⟨row, member, found⟩ := List.mem_filterMap.1 member
      exact given w (.inr (.inr (.inl (List.mem_flatten.2 ⟨row, member, List.mem_of_getElem? found⟩))))
    exact cells.bind fun cells _ grown new => (Grows.forM grown (samples new)).bind
      fun _ _ grown _ => (Grows.forM grown rows).bind fun _ _ grown _ => .forM grown columns

/-! ## Matrices -/

theorem mem_of_mem_productEntry {m x : List (List Var)} {i j : Nat} {v : Var}
    (member : v ∈ (productEntry m x i j).occurrences) : v ∈ m.flatten ++ x.flatten := by
  obtain ⟨e, listed, occurs⟩ := Expr.exists_of_mem_total member
  obtain ⟨k, inside, rfl⟩ := List.getElem_of_mem listed
  rw [List.getElem_zipWith] at occurs
  rcases List.mem_append.1 occurs with left | right
  · have entry : v ∈ m[i]?.getD [] := List.mem_singleton.1 left ▸ List.getElem_mem _
    cases row : m[i]? with
    | none => simp [row] at entry
    | some row' =>
        rw [row] at entry
        exact List.mem_append_left _ (List.mem_flatten.2 ⟨row', List.mem_of_getElem? row, entry⟩)
  · have entry : v ∈ x.filterMap fun r => r[j]? := List.mem_singleton.1 right ▸ List.getElem_mem _
    obtain ⟨row, listed, found⟩ := List.mem_filterMap.1 entry
    exact List.mem_append_right _ (List.mem_flatten.2 ⟨row, listed, List.mem_of_getElem? found⟩)

theorem allOrNothing_encodeInverse (consistent : store.Consistent) (m x : List (List Var)) {large : Prop} :
    AllOrNothing (encodeInverse m x) store (· ∈ m.flatten ++ x.flatten) none large := by
  unfold encodeInverse
  refine .refuse (.of_looks (.orFail _) fun _ _ => .of_looks (.orFail _) fun _ _ =>
    .of_looks (.forM fun row _ => .checkVars row) fun _ _ => .batch consistent ?_ fun before grown => ?_)
  · exact .forM fun i _ => .forM fun j _ => .postExpr _ _
  · exact .forM grown fun i _ _ grown => .forM grown fun j _ _ grown =>
      .postExpr grown (fun w member => .inl (mem_of_mem_productEntry member)) _

theorem allOrNothing_newGrid (consistent : store.Consistent) (name : String) (size : Nat) (bound precision : Float)
    {large : Prop} : AllOrNothing (newGrid name size bound precision) store (· ∈ []) none large := by
  unfold newGrid
  refine .refuse (.of_looks (.orFail _) fun _ _ => .refuse (.batch consistent ?_ fun before grown => ?_))
  · exact .mapM fun i _ => .mapM fun j _ => .newReal _ _ _ _
  · exact (Grows.mapM grown fun i _ _ grown => Grows.mapM grown fun j _ _ grown => .newReal grown _ _ _ _).forget

/-! ## Bin counts -/

theorem ensures_probe {operation : NarrowM α} {reason : Failure → Prop}
    (fails : Ensures operation store.vars (fun _ _ => True) fun failure _ => reason failure) :
    Ensures (probe operation) store (fun _ after => after = store)
      fun failure after => after.Same store ∧ reason failure := by
  refine ensures_bind.2 (ensures_get.2 ?_)
  unfold Ensures at fails
  cases ran : operation store.vars with
  | ok a after => exact rfl
  | error failure after =>
      rw [ran] at fails
      exact ⟨.refl store, fails⟩

theorem allOrNothing_postBinCount (items : List Var) (bins : List Bin) (counts : List Var) :
    AllOrNothing (postBinCount items bins counts) store (· ∈ items ++ counts) none
      (2 ^ 53 ≤ items.length * counts.length) := by
  refine .of_looks (.orFail _) fun filter _ => .refuse (.of_looks (.checkVars items) fun _ knownItems =>
    .of_looks (.checkVars counts) fun _ knownCounts => ?_)
  have looked : Looks (counts.forM checkCount) store fun _ => ∀ v ∈ counts, True :=
    .forM fun v member => (Looks.fetch (knownCounts v member)).bind fun _ _ => Looks.check.mono fun _ _ => trivial
  refine .of_looks looked fun _ _ => ensures_bind.2 ?_
  let c : StatBounds.BinCount := { filter, items, counts }
  have known (v : Var) (inScope : v ∈ c.scope) : store.vars.contains v = true :=
    (List.mem_append.1 inScope).elim (knownItems v) (knownCounts v)
  refine (ensures_probe (BinCount.fails_filtered known)).mono ?_ fun _ _ fails => fails
  rintro _ after rfl
  have posted : AllOrNothing (post (.binCount c)) after (· ∈ items ++ counts) none
      (2 ^ 53 ≤ items.length * counts.length) :=
    .of_looks (.checkVars _) fun _ _ => (Grown.refl after).posting fun v inScope => .inl inScope
  exact posted

end Store

/-! ## Decompositions -/

namespace Operation

/-- The variables that are given to an operation that posts a statistic, counts or a matrix. -/
def decomposed? : Operation → Option (List Var)
  | mean vs output _ | variance _ vs output _ | standardError _ vs output _ => some (output :: vs)
  | tStatistic _ vs supposed output _ => some (supposed :: output :: vs)
  | fisherRatio _ first second output _ => some (output :: (first ++ second))
  | binCounts items _ counts | binCountsIn items _ counts => some (items ++ counts)
  | histogram _ _ items _ counts | histogramIn _ _ items _ counts => some (items ++ counts)
  | contingency _ _ table _ _ | contingencyIn _ _ table _ => some table.vars
  | newGrid _ _ _ _ => some []
  | inverse m x => some (m.flatten ++ x.flatten)
  | _ => none

/-- The output that an operation narrows to what the statistic can be. -/
def output? : Operation → Option Var
  | mean _ output _ | variance _ _ output _ | standardError _ _ output _ | fisherRatio _ _ _ output _ => some output
  | _ => none

/-- So many items are to be counted in so many bins that sums of counts may not fit in a machine word. -/
def CountsTooMany : Operation → Prop
  | binCounts items _ counts | binCountsIn items _ counts => 2 ^ 53 ≤ items.length * counts.length
  | _ => False

theorem allOrNothing {store : Store} (consistent : store.Consistent) {o : Operation} {given : List Var}
    (decomposes : o.decomposed? = some given) :
    Store.AllOrNothing o.run store (· ∈ given) o.output? o.CountsTooMany := by
  cases o <;> simp only [decomposed?, Option.some.injEq, reduceCtorEq] at decomposes <;> subst decomposes
  case mean vs output precision => exact (Store.allOrNothing_encodeMean consistent precision).map _
  case variance name vs output precision => exact (Store.allOrNothing_encodeVariance consistent name precision).map _
  case standardError name vs output precision =>
    exact (Store.allOrNothing_encodeStandardError consistent name precision).map _
  case tStatistic name vs supposed output precision =>
    exact (Store.allOrNothing_encodeTStatistic consistent name precision).map _
  case fisherRatio name first second output precision =>
    exact (Store.allOrNothing_encodeFisherRatio consistent name precision).map _
  case binCounts items bins counts =>
    exact .of_looks (.orFail _) fun bins _ => (Store.allOrNothing_postBinCount items bins counts).map _
  case histogram kind name series bins counts =>
    exact .of_looks (.orFail _) fun bins _ => (Store.allOrNothing_encodeHistogram consistent kind name bins).map _
  case contingency kind name table rows columns =>
    exact .of_looks (.orFail _) fun _ _ => .of_looks (.orFail _) fun _ _ => .of_looks (.orFail _) fun bins _ =>
      (Store.allOrNothing_encodeContingency consistent kind name table bins).map _
  case binCountsIn items bins counts => exact (Store.allOrNothing_postBinCount items bins counts).map _
  case histogramIn kind name series bins counts =>
    exact (Store.allOrNothing_encodeHistogram consistent kind name bins).map _
  case contingencyIn kind name table bins =>
    exact (Store.allOrNothing_encodeContingency consistent kind name table bins).map _
  case newGrid name size bound precision =>
    exact (Store.allOrNothing_newGrid consistent name size bound precision).map _
  case inverse m x => exact (Store.allOrNothing_encodeInverse consistent m x).map _

end Operation

/-- Posting a statistic, counts or a matrix is all or nothing. If it fails, whatever the reason and inside whatever
    batches, variables, names, domains, constraints, watchers and trail are the same as before. If it succeeds, all
    earlier variables keep their names and, up to the output of some statistics, which may be narrowed, their domains,
    all earlier constraints keep their positions, and the newer constraints look at given and newer variables only. -/
theorem Reachable.decomposition_framed {batches : List Store} {store : Store} (reachable : Reachable batches store)
    {o : Operation} {given : List Var} (decomposes : o.decomposed? = some given) :
    Ensures o.run store
      (fun _ after => after.Consistent ∧ store.vars.Shrunk after.vars ∧
        (∀ v, store.vars.contains v = true → o.output? ≠ some v → after.vars.get? v = store.vars.get? v) ∧
        ∃ newer, after.constraints.toList = store.constraints.toList ++ newer ∧ ∀ c ∈ newer, ∀ v ∈ c.scope,
          v ∈ given ∨ store.vars.contains v = false ∧ after.vars.contains v = true)
      fun failure after => after.Same store ∧
        ((∃ e, failure = .error e) ∨ o.CountsTooMany ∧ failure = .fault .overflow) := by
  have consistent := reachable.invariant.1
  have whole := o.procedure.ensures store consistent
  have shrunk := o.procedure.shrunk store consistent
  refine ((whole.and shrunk).and (Operation.allOrNothing consistent decomposes)).mono ?_ ?_
  · rintro _ after ⟨⟨⟨consistent', -⟩, shrunk⟩, grown⟩
    refine ⟨consistent', shrunk, fun v known => grown.older v (of_decide_eq_true known), ?_⟩
    obtain ⟨newer, same, near⟩ := grown.constraints
    refine ⟨newer, same, fun c member v inScope => (near c member v inScope).imp_right fun new => ?_⟩
    have posted : c ∈ after.constraints := by
      rw [← Array.mem_toList_iff, same]
      exact List.mem_append_right _ member
    exact ⟨decide_eq_false (not_lt.2 new), consistent'.scope c posted v inScope⟩
  · rintro failure after ⟨-, same, reason⟩
    refine ⟨same, reason.imp_left fun reported => ?_⟩
    cases failure with
    | error e => exact ⟨e, rfl⟩
    | fault _ => exact reported.elim

def Store.sampled : Store :=
  (fresh.ranging [("x", 0, 3), ("y", 2, 5)]).extended "m" (.real { interval := .ofBounds 0.0 10.0, precision := 0.5 })

theorem Store.reachable_sampled : Reachable [] sampled := by
  have made : Reachable [] (fresh.ranging [("x", 0, 3), ("y", 2, 5)]) :=
    reachable_ranging reachable_fresh (by decide) (by decide) (by simp [fresh, Variables.empty])
  refine .succeeded made (.newReal "m" 0.0 10.0 0.5) (a := ⟨2⟩) ?_
  change addVar "m" (.real { interval := .ofBounds 0.0 10.0, precision := 0.5 }) _ = _
  rw [addVar_eq, contains_ranging_fresh]
  rfl

/-- The mean of two integers leaves them alone and narrows its output. -/
theorem decomposition_framed_mean : ∃ (store after : Store) (answer : Answer), Reachable [] store ∧
    (Operation.mean [⟨0⟩, ⟨1⟩] ⟨2⟩ 0.5).run store = .ok answer after ∧
    after.vars.get? ⟨0⟩ = store.vars.get? ⟨0⟩ ∧ store.vars.Shrunk after.vars := by
  let store := Store.sampled
  have reachable : Reachable [] store := Store.reachable_sampled
  have framed := Reachable.decomposition_framed reachable (o := .mean [⟨0⟩, ⟨1⟩] ⟨2⟩ 0.5) rfl
  unfold Ensures at framed
  cases ran : (Operation.mean [⟨0⟩, ⟨1⟩] ⟨2⟩ 0.5).run store with
  | ok answer after =>
      rw [ran] at framed
      obtain ⟨-, shrunk, older, -⟩ := framed
      exact ⟨store, after, answer, reachable, ran, older _ rfl (by decide), shrunk⟩
  | error failure after =>
      have succeeds : ((Operation.mean [⟨0⟩, ⟨1⟩] ⟨2⟩ 0.5).run.run' store).isSome = true := by decide +kernel
      rw [EStateM.run', EStateM.run, ran] at succeeds
      cases succeeds

end StatBounds
