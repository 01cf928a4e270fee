import StatBounds.Encoding.BinCount
import StatBounds.Encoding.Contingency
import StatBounds.Encoding.Histogram
import StatBounds.Encoding.Inverse
import StatBounds.Encoding.Statistic

/-!
# Scripts

Store operations as data. A script is a list of steps, each of which runs whatever became of the ones
before it; a batch is a step that has a script inside. What every step did is reported, so a script is
a full account of a run.
-/

namespace StatBounds

/-- Bins as they are given to a step: by the bounds of each, or by common boundaries. -/
inductive BinList where
  | bounds (pairs : List (Float × Float))
  | boundaries (values : List Float)

/-- The bins of a list, in order. -/
def BinList.build : BinList → Except Error (List Bin)
  | bounds pairs => pairs.mapM fun (lb, ub) => Bin.ofBounds lb ub
  | boundaries values => Bin.ofBoundaries values

/-- One operation on a store. -/
inductive Operation where
  | newInt (name : String) (values : List Int)
  | newIntRange (name : String) (lo hi : Int)
  | newBool (name : String)
  | newReal (name : String) (lo hi precision : Float)
  | newConstant (name : String) (value : Float)
  | narrow (v : Var) (onto : Interval)
  | checkVar (v : Var)
  | contains (v : Var)
  | lookup (name : String)
  | summary
  | config
  | hull (vs : List Var)
  | info (v : Var)
  | postRelation (lhs rhs : Expr)
  | postExpr (e : Expr) (target : Interval)
  | postSum (terms : List Var) (total : Var)
  | postReified (indicator : Var) (atoms : List Atom)
  | postCustom (constraint : Custom)
  | mean (observations : List Var) (output : Var) (precision : Float)
  | variance (name : String) (observations : List Var) (output : Var) (precision : Float)
  | standardError (name : String) (observations : List Var) (output : Var) (precision : Float)
  | tStatistic (name : String) (observations : List Var) (supposed output : Var)
      (precision : Float)
  | fisherRatio (name : String) (first second : List Var) (output : Var) (precision : Float)
  | binCounts (items : List Var) (bins : BinList) (counts : List Var)
  | histogram (kind : SeriesKind) (name : String) (series : List Var) (bins : BinList)
      (counts : List Var)
  | contingency (kind : SeriesKind) (name : String) (table : ContingencyTable)
      (rows columns : BinList)
  /-- The bins are taken as they are, well-formed or not; so in the next two. -/
  | binCountsIn (items : List Var) (bins : List Bin) (counts : List Var)
  | histogramIn (kind : SeriesKind) (name : String) (series : List Var) (bins : List Bin)
      (counts : List Var)
  | contingencyIn (kind : SeriesKind) (name : String) (table : ContingencyTable)
      (bins : ContingencyBins)
  | newGrid (name : String) (size : Nat) (bound precision : Float)
  | inverse (m x : List (List Var))

/-- What is known of a variable. -/
structure VariableInfo where
  name : String
  summary : String
  bounds : Interval
  fixed : Bool
  value : Option Float
  deriving DecidableEq

/-- What an operation answers. -/
inductive Answer where
  | done
  | var (v : Var)
  | changed (flag : Bool)
  | contained (flag : Bool)
  | found (v : Option Var)
  | text (s : String)
  | config (c : Config)
  | interval (i : Interval)
  | info (v : Var) (i : VariableInfo)
  | grid (vs : List (List Var))
  deriving DecidableEq

namespace Operation

def describe (v : Var) : StoreM VariableInfo := do
  let x ← Store.onVars (Variables.fetch v)
  return {
    name := x.name
    summary := x.domain.summary
    bounds := x.domain.hull
    fixed := x.domain.isFixed
    value := x.domain.value? }

/-- The smallest interval that holds the domains of variables, all of which have to be there. -/
def hullOf (vs : List Var) : StoreM Interval := do
  vs.forM fun v => discard (Store.onVars (Variables.fetch v))
  return Store.observationHull vs (← get)

/-- Run an operation. Bins that are given as a list of bounds are built before anything else is done. -/
def run : Operation → StoreM Answer
  | newInt name values => return .var (← Store.newInt name values)
  | newIntRange name lo hi => return .var (← Store.newIntRange name lo hi)
  | newBool name => return .var (← Store.newBool name)
  | newReal name lo hi precision => return .var (← Store.newReal name lo hi precision)
  | newConstant name value => return .var (← Store.newConstant name value)
  | narrow v onto => return .changed (← Store.narrow v onto)
  | checkVar v => do Store.checkVar v; return .done
  | contains v => return .contained ((← get).vars.contains v)
  | lookup name => return .found ((← get).lookup? name)
  | summary => return .text (← get).summary
  | config => return .config (← get).config
  | hull vs => return .interval (← hullOf vs)
  | info v => return .info v (← describe v)
  | postRelation lhs rhs => do Store.postRelation lhs rhs; return .done
  | postExpr e target => do Store.postExpr e target; return .done
  | postSum terms total => do Store.postSum terms total; return .done
  | postReified indicator atoms => do Store.postReified indicator atoms; return .done
  | postCustom constraint => do Store.post (.custom constraint); return .done
  | mean observations output precision => do
      Store.encodeMean observations output precision
      return .done
  | variance name observations output precision => do
      Store.encodeVariance name observations output precision
      return .done
  | standardError name observations output precision => do
      Store.encodeStandardError name observations output precision
      return .done
  | tStatistic name observations supposed output precision => do
      Store.encodeTStatistic name observations supposed output precision
      return .done
  | fisherRatio name first second output precision => do
      Store.encodeFisherRatio name first second output precision
      return .done
  | binCounts items bins counts => do
      Store.postBinCount items (← orFail bins.build) counts
      return .done
  | histogram kind name series bins counts => do
      Store.encodeHistogram kind name series (← orFail bins.build) counts
      return .done
  | contingency kind name table rows columns => do
      let rows ← orFail rows.build
      let columns ← orFail columns.build
      let bins ← orFail (ContingencyBins.ofBins rows columns)
      Store.encodeContingency kind name table bins
      return .done
  | binCountsIn items bins counts => do Store.postBinCount items bins counts; return .done
  | histogramIn kind name series bins counts => do
      Store.encodeHistogram kind name series bins counts
      return .done
  | contingencyIn kind name table bins => do
      Store.encodeContingency kind name table bins
      return .done
  | newGrid name size bound precision => return .grid (← Store.newGrid name size bound precision)
  | inverse m x => do Store.encodeInverse m x; return .done

end Operation

/-- One step of a script. -/
inductive Step where
  | operation (o : Operation)
  | propagate
  /-- A batch of steps. It ends with the first error of a step, unless it keeps going, or else with the
      error to raise at its end, if there is one. -/
  | batch (steps : List Step) (keepGoing : Bool) (raise : Option Error)

/-- What a step did. -/
inductive Report where
  | mk (outcome : Except Failure Answer) (propagation : Option Propagation) (after : Store)
      (inner : Option (List Report))

namespace Report

def outcome : Report → Except Failure Answer
  | mk outcome _ _ _ => outcome

def propagation : Report → Option Propagation
  | mk _ propagation _ _ => propagation

/-- The store after the step. -/
def after : Report → Store
  | mk _ _ after _ => after

/-- The reports of the steps of a batch that ran. -/
def inner : Report → Option (List Report)
  | mk _ _ _ inner => inner

end Report

namespace Step

/-- Whether a batch ends with the outcome of one of its steps. -/
def stops (keepGoing : Bool) : Except Failure Answer → Option Failure
  | .ok _ => none
  | .error (.error e) => if keepGoing then none else some (.error e)
  | .error (.fault fault) => some (.fault fault)

/-- The outcome of a step without an answer of its own. -/
def outcomeOf : Option Failure → Except Failure Answer
  | none => .ok .done
  | some failure => .error failure

mutual

def run (store : Store) : Step → Report
  | operation o =>
      match o.run store with
      | .ok answer after => .mk (.ok answer) none after none
      | .error failure after => .mk (.error failure) none after none
  | propagate =>
      let result := store.propagation
      .mk (outcomeOf result.failure?) (some result) { store with vars := result.vars } none
  | batch steps keepGoing raise =>
      let (reports, after, failure) := runBatch keepGoing raise store.openBatch steps
      .mk (outcomeOf failure) none (after.closeBatch store.mark failure) (some reports)

/-- Run the steps of a batch until one of them stops it, and tell with which failure it ends. -/
def runBatch (keepGoing : Bool) (raise : Option Error) (store : Store) :
    List Step → List Report × Store × Option Failure
  | [] => ([], store, raise.map .error)
  | step :: rest =>
      let report := step.run store
      match stops keepGoing report.outcome with
      | some failure => ([report], report.after, some failure)
      | none =>
          let (reports, after, failure) := runBatch keepGoing raise report.after rest
          (report :: reports, after, failure)

end

/-- Run the steps of a script one after another. -/
def runAll (store : Store) : List Step → List Report
  | [] => []
  | step :: rest =>
      let report := step.run store
      report :: runAll report.after rest

end Step

end StatBounds
