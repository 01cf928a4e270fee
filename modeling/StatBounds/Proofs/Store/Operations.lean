import StatBounds.Proofs.Store.Agreement
import StatBounds.Proofs.Store.Reachability
import StatBounds.Script

/-! # Operations are procedures

Every operation that a script can run on a store, the encodings of statistics included, is made of the
primitive ones. So what is shown of procedures holds of all of them, and a script reports reachable stores.
-/

namespace StatBounds

namespace Procedure

variable {α β : Type}

theorem map {operation : StoreM α} (f : α → β) (procedure : Procedure operation) :
    Procedure (f <$> operation) := by
  rw [map_eq_pure_bind]
  exact procedure.bind fun _ => .pure _

theorem discard {operation : StoreM α} (procedure : Procedure operation) : Procedure (discard operation) :=
  procedure.map _

theorem forM {step : α → StoreM PUnit} {as : List α} (each : ∀ a ∈ as, Procedure (step a)) :
    Procedure (as.forM step) := by
  induction as with
  | nil => exact .pure _
  | cons a as ih =>
      exact (each a (by simp)).bind fun _ => ih fun a member => each a (by simp [member])

theorem mapM {step : α → StoreM β} {as : List α} (each : ∀ a ∈ as, Procedure (step a)) :
    Procedure (as.mapM step) := by
  induction as with
  | nil => exact .pure _
  | cons a as ih =>
      rw [List.mapM_cons]
      exact (each a (by simp)).bind fun b =>
        (ih fun a member => each a (by simp [member])).bind fun bs => .pure _

theorem orFail (check : Except Error α) : Procedure (orFail check : StoreM α) := by
  cases check with
  | ok a => exact .pure a
  | error e => exact .fail _

theorem refuse {condition : Prop} [Decidable condition] {failure : Failure} {rest : PUnit → StoreM α}
    (tail : Procedure (rest ⟨⟩)) : Procedure (if condition then throw failure >>= rest else rest ⟨⟩) := by
  split_ifs
  · exact (Procedure.fail failure).bind fun _ => tail
  · exact tail

theorem check {condition : Prop} [Decidable condition] {failure : Failure} :
    Procedure (if condition then throw failure else Pure.pure ⟨⟩ : StoreM PUnit) := by
  split_ifs
  · exact .fail _
  · exact .pure _

theorem fetch (v : Var) : Procedure (Store.onVars (Variables.fetch v)) := by
  have looks : Narrowing (fun _ => True) (Variables.fetch v) := .fetch trivial
  exact .narrowing looks

theorem checkVar (v : Var) : Procedure (Store.checkVar v) := by
  refine .read (fun store => check) fun store other alike => ?_
  · have size : store.vars.size = other.vars.size := congrArg Array.size alike.arena
    rw [Variables.contains, Variables.contains, size]

theorem checkVars (vs : List Var) : Procedure (Store.checkVars vs) :=
  forM fun v _ => checkVar v

theorem narrow (v : Var) (onto : Interval) : Procedure (Store.narrow v onto) := by
  have narrows : Narrowing (fun _ => True) (Variables.narrow v onto) := .narrow trivial onto
  exact (checkVar v).bind fun _ => .narrowing narrows

theorem newConstant (name : String) (value : Float) : Procedure (Store.newConstant name value) :=
  .read (fun _ => .newReal _ _ _ _) fun store other alike => by rw [alike.config]

/-! ## Posting -/

theorem postExpr (e : Expr) (target : Interval) : Procedure (Store.postExpr e target) := by
  unfold Store.postExpr
  exact refuse (.post _)

theorem postRelation (lhs rhs : Expr) : Procedure (Store.postRelation lhs rhs) :=
  postExpr _ _

theorem postSum (terms : List Var) (total : Var) : Procedure (Store.postSum terms total) :=
  .post _

theorem postReified (indicator : Var) (atoms : List Atom) : Procedure (Store.postReified indicator atoms) :=
  (checkVar indicator).bind fun _ => (fetch indicator).bind fun _ => refuse (refuse (.post _))

/-- The check of a bin count looks at the variables as its propagation would, and leaves them alone. -/
theorem probe {operation : NarrowM α} {inside : Var → Prop} (narrowing : Narrowing inside operation) :
    Procedure (Store.probe operation) := by
  refine .read (fun store => ?_) fun store other alike => ?_
  · split
    · exact .pure _
    · exact .fail _
  · have close : Store.Close False store other := ⟨alike, False.elim⟩
    have both := narrowing.matching close.vars
    unfold Matching at both
    cases ran : operation store.vars with
    | ok a after =>
        cases ran' : operation other.vars with
        | ok b after' => rfl
        | error f after' => simp [ran, ran'] at both
    | error e after =>
        cases ran' : operation other.vars with
        | ok b after' => simp [ran, ran'] at both
        | error f after' =>
            rw [ran, ran'] at both
            simp only [both.1]

theorem postBinCount (items : List Var) (bins : List Bin) (counts : List Var) :
    Procedure (Store.postBinCount items bins counts) := by
  refine (orFail _).bind fun filter => refuse ((checkVars items).bind fun _ => (checkVars counts).bind fun _ =>
    (forM fun v _ => (fetch v).bind fun _ => check).bind fun _ => ?_)
  have filtered : Narrowing (fun _ => True) (BinCount.filtered { filter, items, counts }) :=
    (Local.filtered fun _ _ => trivial).narrowing
  exact (probe filtered).bind fun _ => .post _

/-! ## Encodings -/

theorem checkSeries (task : String) (kind : SeriesKind) (series : List Var) :
    Procedure (Store.checkSeries task kind series) :=
  forM fun v _ => (checkVar v).bind fun _ => (fetch v).bind fun _ => check

theorem newIndicator (name : String) (atoms : List Atom) : Procedure (Store.newIndicator name atoms) :=
  (newBool name).bind fun v => (postReified v atoms).bind fun _ => .pure v

theorem observationHull_congr {store other : Store} (alike : store.Alike other) (vs : List Var) :
    Store.observationHull vs store = Store.observationHull vs other := by
  have bounds : store.vars.bounds = other.vars.bounds :=
    funext fun v => Variables.bounds_congr (by rw [Variables.get?, Variables.get?, alike.arena])
  simp only [Store.observationHull, bounds]

theorem varianceBound (vs : List Var) : Procedure (Store.varianceBound vs) :=
  .read (fun _ => refuse (orFail _)) fun store other alike => by rw [observationHull_congr alike]

theorem checkObservations (statistic : Statistic) (vs : List Var) :
    Procedure (Store.checkObservations statistic vs) := by
  unfold Store.checkObservations
  exact refuse (checkVars vs)

theorem checkOutput (statistic : Statistic) (output : Var) : Procedure (Store.checkOutput statistic output) :=
  (checkVar output).bind fun _ => (fetch output).bind fun _ => check

theorem newMean (name : String) (vs : List Var) (precision : Float) :
    Procedure (Store.newMean name vs precision) :=
  .read (fun _ => (newReal _ _ _ _).bind fun _ => (postRelation _ _).bind fun _ => .pure _)
    fun store other alike => by rw [observationHull_congr alike]

theorem newVariance (name : String) (vs : List Var) (precision : Float) :
    Procedure (Store.newVariance name vs precision) :=
  (varianceBound vs).bind fun _ => (newMean _ vs precision).bind fun _ => (newReal _ _ _ _).bind fun _ =>
    (postRelation _ _).bind fun _ => .pure _

theorem newStandardError (name : String) (vs : List Var) (precision : Float) :
    Procedure (Store.newStandardError name vs precision) :=
  (varianceBound vs).bind fun _ => (newVariance _ vs precision).bind fun _ => (newReal _ _ _ _).bind fun _ =>
    (postRelation _ _).bind fun _ => .pure _

theorem encodeMean (vs : List Var) (output : Var) (precision : Float) :
    Procedure (Store.encodeMean vs output precision) := by
  refine (orFail _).bind fun _ => (checkObservations _ vs).bind fun _ => (checkOutput _ output).bind fun _ =>
    .read (fun _ => .batch ?_) fun store other alike => by rw [observationHull_congr alike]
  exact (narrow output _).discard.bind fun _ => postRelation _ _

theorem encodeVariance (name : String) (vs : List Var) (output : Var) (precision : Float) :
    Procedure (Store.encodeVariance name vs output precision) := by
  refine (orFail _).bind fun _ => (checkObservations _ vs).bind fun _ => (checkOutput _ output).bind fun _ =>
    (varianceBound vs).bind fun _ => .batch ?_
  exact (narrow output _).discard.bind fun _ => (newMean _ vs precision).bind fun _ => postRelation _ _

theorem encodeStandardError (name : String) (vs : List Var) (output : Var) (precision : Float) :
    Procedure (Store.encodeStandardError name vs output precision) := by
  refine (orFail _).bind fun _ => (checkObservations _ vs).bind fun _ => (checkOutput _ output).bind fun _ =>
    (varianceBound vs).bind fun _ => .batch ?_
  exact (narrow output _).discard.bind fun _ => (newVariance _ vs precision).bind fun _ => postRelation _ _

theorem encodeTStatistic (name : String) (vs : List Var) (supposed output : Var) (precision : Float) :
    Procedure (Store.encodeTStatistic name vs supposed output precision) := by
  refine (orFail _).bind fun _ => (checkObservations _ vs).bind fun _ => (checkVar supposed).bind fun _ =>
    (checkOutput _ output).bind fun _ => (varianceBound vs).discard.bind fun _ => .batch ?_
  exact (newMean _ vs precision).bind fun _ => (newStandardError _ vs precision).bind fun _ => postRelation _ _

theorem encodeFisherRatio (name : String) (first second : List Var) (output : Var) (precision : Float) :
    Procedure (Store.encodeFisherRatio name first second output precision) := by
  refine (orFail _).bind fun _ => (checkObservations _ first).bind fun _ =>
    (checkObservations _ second).bind fun _ => (checkOutput _ output).bind fun _ =>
    (varianceBound first).discard.bind fun _ => (varianceBound second).discard.bind fun _ => .batch ?_
  exact (narrow output _).discard.bind fun _ => (newVariance _ first precision).bind fun _ =>
    (newVariance _ second precision).bind fun _ => postRelation _ _

theorem newHistogramRow (kind : SeriesKind) (name : String) (bins : List Bin) (item : Nat) (v : Var) :
    Procedure (Store.newHistogramRow kind name bins item v) :=
  (mapM fun _ _ => newIndicator _ _).bind fun _ => (postExpr _ _).bind fun _ => .pure _

theorem encodeHistogram (kind : SeriesKind) (name : String) (series : List Var) (bins : List Bin)
    (counts : List Var) : Procedure (Store.encodeHistogram kind name series bins counts) :=
  (orFail _).bind fun _ => refuse ((checkSeries _ kind series).bind fun _ => (checkVars counts).bind fun _ =>
    .batch ((mapM fun _ _ => newHistogramRow _ _ _ _ _).bind fun _ => forM fun _ _ => postSum _ _))

theorem newCells (kind : SeriesKind) (name : String) (t : ContingencyTable) (bins : ContingencyBins) :
    Procedure (Store.newCells kind name t bins) :=
  (mapM fun _ _ => mapM fun _ _ =>
    (mapM fun _ _ => newIndicator _ _).bind fun _ => (postSum _ _).bind fun _ => .pure _).bind fun _ => .pure _

theorem postSample (bins : ContingencyBins) (cells : List (List Var)) (i : Nat) (first second : Var) :
    Procedure (Store.postSample bins cells i first second) :=
  (fetch first).bind fun _ => (fetch second).bind fun _ => postExpr _ _

theorem encodeContingency (kind : SeriesKind) (name : String) (t : ContingencyTable) (bins : ContingencyBins) :
    Procedure (Store.encodeContingency kind name t bins) := by
  refine (orFail _).bind fun _ => (checkSeries _ kind _).bind fun _ => (checkSeries _ kind _).bind fun _ =>
    (forM fun row _ => checkVars row).bind fun _ => (checkVars _).bind fun _ => (checkVars _).bind fun _ =>
    .batch ?_
  exact (newCells kind name t bins).bind fun cells => (forM fun _ _ => postSample bins cells _ _ _).bind fun _ =>
    (forM fun _ _ => postSum _ _).bind fun _ => forM fun _ _ => postSum _ _

theorem encodeInverse (m x : List (List Var)) : Procedure (Store.encodeInverse m x) := by
  unfold Store.encodeInverse
  refine refuse ((orFail _).bind fun _ => (orFail _).bind fun _ => (forM fun row _ => checkVars row).bind fun _ =>
    .batch ?_)
  exact forM fun i _ => forM fun j _ => postExpr _ _

theorem newGrid (name : String) (size : Nat) (bound precision : Float) :
    Procedure (Store.newGrid name size bound precision) := by
  unfold Store.newGrid
  refine refuse ((orFail _).bind fun _ => refuse (.batch ?_))
  exact mapM fun i _ => mapM fun j _ => newReal _ _ _ _

end Procedure

/-! ## Scripts -/

theorem Operation.procedure (operation : Operation) : Procedure operation.run := by
  cases operation with
  | newInt name values => exact (Procedure.newInt name values).map _
  | newIntRange name lo hi => exact (Procedure.newIntRange name lo hi).map _
  | newBool name => exact (Procedure.newBool name).map _
  | newReal name lo hi precision => exact (Procedure.newReal name lo hi precision).map _
  | newConstant name value => exact (Procedure.newConstant name value).map _
  | narrow v onto => exact (Procedure.narrow v onto).map _
  | checkVar v => exact (Procedure.checkVar v).bind fun _ => .pure _
  | contains v =>
      refine .read (fun _ => .pure _) fun store other alike => ?_
      rw [Variables.contains, Variables.contains, Variables.size, Variables.size, alike.arena]
  | lookup name =>
      refine .read (fun _ => .pure _) fun store other alike => ?_
      rw [Store.lookup?, Store.lookup?, alike.names]
  | summary =>
      refine .read (fun _ => .pure _) fun store other alike => ?_
      rw [Store.summary, Store.summary, Store.fixedCount, Store.fixedCount, Variables.size, Variables.size,
        alike.arena, alike.constraints]
  | config => exact .read (fun _ => .pure _) fun store other alike => by rw [alike.config]
  | hull vs =>
      have looked : Procedure (hullOf vs) :=
        (Procedure.forM fun v _ => (Procedure.fetch v).discard).bind fun _ =>
          .read (fun _ => .pure _) fun store other alike => by rw [Procedure.observationHull_congr alike]
      exact looked.map _
  | info v =>
      have looked : Procedure (describe v) := (Procedure.fetch v).bind fun _ => .pure _
      exact looked.map _
  | postRelation lhs rhs => exact (Procedure.postRelation lhs rhs).bind fun _ => .pure _
  | postExpr e target => exact (Procedure.postExpr e target).bind fun _ => .pure _
  | postSum terms total => exact (Procedure.postSum terms total).bind fun _ => .pure _
  | postReified indicator atoms => exact (Procedure.postReified indicator atoms).bind fun _ => .pure _
  | postCustom constraint => exact (Procedure.post _).bind fun _ => .pure _
  | mean vs output precision => exact (Procedure.encodeMean vs output precision).bind fun _ => .pure _
  | variance name vs output precision =>
      exact (Procedure.encodeVariance name vs output precision).bind fun _ => .pure _
  | standardError name vs output precision =>
      exact (Procedure.encodeStandardError name vs output precision).bind fun _ => .pure _
  | tStatistic name vs supposed output precision =>
      exact (Procedure.encodeTStatistic name vs supposed output precision).bind fun _ => .pure _
  | fisherRatio name first second output precision =>
      exact (Procedure.encodeFisherRatio name first second output precision).bind fun _ => .pure _
  | binCounts items bins counts =>
      exact (Procedure.orFail _).bind fun _ => (Procedure.postBinCount items _ counts).bind fun _ => .pure _
  | histogram kind name series bins counts =>
      exact (Procedure.orFail _).bind fun _ =>
        (Procedure.encodeHistogram kind name series _ counts).bind fun _ => .pure _
  | contingency kind name table rows columns =>
      exact (Procedure.orFail _).bind fun _ => (Procedure.orFail _).bind fun _ => (Procedure.orFail _).bind fun _ =>
        (Procedure.encodeContingency kind name table _).bind fun _ => .pure _
  | binCountsIn items bins counts => exact (Procedure.postBinCount items bins counts).bind fun _ => .pure _
  | histogramIn kind name series bins counts =>
      exact (Procedure.encodeHistogram kind name series bins counts).bind fun _ => .pure _
  | contingencyIn kind name table bins =>
      exact (Procedure.encodeContingency kind name table bins).bind fun _ => .pure _
  | newGrid name size bound precision => exact (Procedure.newGrid name size bound precision).map _
  | inverse m x => exact (Procedure.encodeInverse m x).bind fun _ => .pure _

namespace Step

/-- What one step does to the store, without the reports. -/
def perform (step : Step) : StoreM Answer := fun store =>
  match (step.run store).outcome with
  | .ok answer => .ok answer (step.run store).after
  | .error failure => .error failure (step.run store).after

def performAll (keepGoing : Bool) (raise : Option Error) (steps : List Step) : StoreM Unit := fun store =>
  match (runBatch keepGoing raise store steps).2 with
  | (after, none) => .ok () after
  | (after, some failure) => .error failure after

theorem perform_operation (o : Operation) : (operation o).perform = o.run := by
  funext store
  simp only [perform, run]
  cases o.run store <;> rfl

theorem perform_propagate : propagate.perform = Store.propagate >>= fun _ => pure .done := by
  funext store
  simp only [perform, run, Store.propagate, Bind.bind, EStateM.bind]
  cases store.propagation.failure? <;> rfl

theorem perform_batch (steps : List Step) (keepGoing : Bool) (raise : Option Error) :
    (batch steps keepGoing raise).perform =
      Store.batch (performAll keepGoing raise steps) >>= fun _ => pure .done := by
  funext store
  simp only [perform, run, Store.batch, performAll, Bind.bind, EStateM.bind]
  rcases runBatch keepGoing raise store.openBatch steps with ⟨reports, after, failure⟩
  cases failure <;> rfl

theorem performAll_cons (keepGoing : Bool) (raise : Option Error) (step : Step) (rest : List Step) :
    performAll keepGoing raise (step :: rest) =
      if keepGoing then Store.attempt step.perform >>= fun _ => performAll keepGoing raise rest
      else step.perform >>= fun _ => performAll keepGoing raise rest := by
  funext store
  cases keepGoing with
  | false =>
      simp only [performAll, runBatch, perform, Bool.false_eq_true, if_false, Bind.bind, EStateM.bind]
      cases (step.run store).outcome with
      | ok answer => rfl
      | error failure => cases failure <;> rfl
  | true =>
      simp only [performAll, runBatch, perform, Store.attempt, if_true, Bind.bind, EStateM.bind]
      cases (step.run store).outcome with
      | ok answer => rfl
      | error failure => cases failure <;> rfl

mutual

theorem procedure : ∀ step : Step, Procedure step.perform
  | operation o => by
      rw [perform_operation]
      exact o.procedure
  | propagate => by
      rw [perform_propagate]
      exact Procedure.propagate.bind fun _ => .pure _
  | batch steps keepGoing raise => by
      rw [perform_batch]
      exact (procedureAll keepGoing raise steps).batch.bind fun _ => .pure _

theorem procedureAll (keepGoing : Bool) (raise : Option Error) :
    ∀ steps : List Step, Procedure (performAll keepGoing raise steps)
  | [] => by
      cases raise with
      | none => exact .pure ()
      | some e => exact .fail (.error e)
  | step :: rest => by
      rw [performAll_cons]
      split_ifs
      · exact (procedure step).attempt.bind fun _ => procedureAll keepGoing raise rest
      · exact (procedure step).bind fun _ => procedureAll keepGoing raise rest

end

end Step

/-- A script that starts with a reachable store reports reachable ones, as long as no step breaks a rule of use. -/
theorem Reachable.of_runAll {batches : List Store} {store : Store} (reachable : Reachable batches store)
    {steps : List Step}
    (kept : ∀ report ∈ Step.runAll store steps, ∀ fault, report.outcome ≠ .error (.fault fault)) :
    ∀ report ∈ Step.runAll store steps, Reachable batches report.after := by
  induction steps generalizing store with
  | nil => simp [Step.runAll]
  | cons step rest ih =>
      rw [Step.runAll] at kept ⊢
      obtain ⟨first, later⟩ := List.forall_mem_cons.1 kept
      have next : Reachable batches (step.run store).after := by
        cases outcome : (step.run store).outcome with
        | ok answer => exact .succeeded reachable step.procedure (a := answer) (by rw [Step.perform, outcome])
        | error failure =>
            cases failure with
            | error e => exact .failed reachable step.procedure (e := e) (by rw [Step.perform, outcome])
            | fault fault => exact absurd outcome (first fault)
      exact List.forall_mem_cons.2 ⟨next, ih next later⟩

end StatBounds
