import StatBounds.Encoding.Series

/-!
# Derived statistics

Mean, variance, standard error, t statistic and Fisher ratio of observations, as networks of formulas.
A statistic that is needed on the way becomes a new real variable, bounded by what the statistic can be
for any values in the hull of the observations, and tied to its inputs by one formula.
-/

namespace StatBounds

/-- The statistics that can be posted. -/
inductive Statistic where
  | mean
  | variance
  | standardError
  | tStatistic
  | fisherRatio
  deriving Repr, DecidableEq

namespace Statistic

def name : Statistic → String
  | mean => "mean"
  | variance => "variance"
  | standardError => "standard_error"
  | tStatistic => "t_statistic"
  | fisherRatio => "fisher_ratio"

/-- The number of observations that a statistic needs. The spread of a single one is not defined. -/
def minObservations : Statistic → Nat
  | mean => 1
  | _ => 2

end Statistic

/-- An upper bound of the sample variances of `n` values from a range of a given width. The greatest
    one is reached with half of the values at each end: it is `⌊n/2⌋ · ⌈n/2⌉ / (n · (n - 1))` times the
    squared width. -/
def maxSampleVariance (n : Nat) (width : Float) : Except Error Float :=
  if n < 2 then
    .error (.fewValues n)
  else if width.isNaN || width < 0.0 then
    .error (.rangeWidth width)
  else
    let low := Binary64.ofNat (n / 2)
    let high := Binary64.ofNat (n - n / 2)
    let size := Binary64.ofNat n
    let bound := Interval.point (low * high) / Interval.point (size * (size - 1.0))
      * (Interval.point width).sqr
    .ok bound.hi

/-- An upper bound of the standard errors of `n` values whose variance is bounded. -/
def maxStandardError (n : Nat) (variance : Float) : Float :=
  (Interval.point variance / Interval.point (Binary64.ofNat n)).sqrt.hi

namespace Store

/-- The smallest interval that holds the domain of every observation. -/
def observationHull (observations : List Var) (store : Store) : Interval :=
  observations.foldl (fun hull v => hull.hull (store.vars.bounds v)) .empty

/-- An upper bound of the sample variance of observations. -/
def varianceBound (observations : List Var) : StoreM Float := do
  let hull := observationHull observations (← get)
  if hull.isEmpty then
    throw (.error .emptyObservations)
  orFail (maxSampleVariance observations.length hull.width)

def checkObservations (statistic : Statistic) (observations : List Var) : StoreM Unit := do
  if observations.length < statistic.minObservations then
    throw (.error
      (.fewObservations statistic.name statistic.minObservations observations.length))
  checkVars observations

def checkOutput (statistic : Statistic) (output : Var) : StoreM Unit := do
  checkVar output
  let x ← onVars (Variables.fetch output)
  if x.domain.isFinite then
    throw (.error (.integerOutput statistic.name x.name))

def linkMean (observations : List Var) (target : Var) : StoreM Unit :=
  postRelation (.var target)
    (sumOf observations / .const (Binary64.ofNat observations.length))

def linkVariance (observations : List Var) (mean target : Var) : StoreM Unit :=
  let squares := observations.map fun v => Expr.sqr (.var v - .var mean)
  postRelation (.var target)
    (.total squares / .const (Binary64.ofNat observations.length - 1.0))

/-- Post that a variable is the standard error of `n` observations with a given variance. -/
def linkStandardError (n : Nat) (variance target : Var) : StoreM Unit :=
  postRelation (.var target) (.sqrt (.var variance / .const (Binary64.ofNat n)))

def newMean (name : String) (observations : List Var) (precision : Float) : StoreM Var := do
  let hull := observationHull observations (← get)
  let mean ← newReal name hull.lo hull.hi precision
  linkMean observations mean
  return mean

def newVariance (name : String) (observations : List Var) (precision : Float) : StoreM Var := do
  let greatest ← varianceBound observations
  let mean ← newMean (name ++ ".mean") observations precision
  let variance ← newReal name 0.0 greatest precision
  linkVariance observations mean variance
  return variance

def newStandardError (name : String) (observations : List Var) (precision : Float) :
    StoreM Var := do
  let greatest ← varianceBound observations
  let variance ← newVariance (name ++ ".variance") observations precision
  let n := observations.length
  let error ← newReal name 0.0 (maxStandardError n greatest) precision
  linkStandardError n variance error
  return error

def encodeMean (observations : List Var) (output : Var) (precision : Float) : StoreM Unit := do
  orFail (checkPrecision precision)
  checkObservations .mean observations
  checkOutput .mean output
  let hull := observationHull observations (← get)
  batch do
    discard (narrow output hull)
    linkMean observations output

def encodeVariance (name : String) (observations : List Var) (output : Var) (precision : Float) :
    StoreM Unit := do
  orFail (checkPrecision precision)
  checkObservations .variance observations
  checkOutput .variance output
  let greatest ← varianceBound observations
  batch do
    discard (narrow output (.ofBounds 0.0 greatest))
    let mean ← newMean (name ++ ".mean") observations precision
    linkVariance observations mean output

def encodeStandardError (name : String) (observations : List Var) (output : Var)
    (precision : Float) : StoreM Unit := do
  orFail (checkPrecision precision)
  checkObservations .standardError observations
  checkOutput .standardError output
  let greatest ← varianceBound observations
  let n := observations.length
  batch do
    discard (narrow output (.ofBounds 0.0 (maxStandardError n greatest)))
    let variance ← newVariance (name ++ ".variance") observations precision
    linkStandardError n variance output

/-- Post that an output is the t statistic of observations for a supposed mean: the output times the
    standard error is the difference of the means, also where the standard error may be zero. -/
def encodeTStatistic (name : String) (observations : List Var) (supposed output : Var)
    (precision : Float) : StoreM Unit := do
  orFail (checkPrecision precision)
  checkObservations .tStatistic observations
  checkVar supposed
  checkOutput .tStatistic output
  discard (varianceBound observations)
  batch do
    let mean ← newMean (name ++ ".sample_mean") observations precision
    let error ← newStandardError (name ++ ".standard_error") observations precision
    postRelation (.var output * .var error) (.var mean - .var supposed)

/-- Post that an output is the ratio of the variances of two lists of observations: the output times
    the second variance is the first one, also where the second one may be zero. -/
def encodeFisherRatio (name : String) (first second : List Var) (output : Var)
    (precision : Float) : StoreM Unit := do
  orFail (checkPrecision precision)
  checkObservations .fisherRatio first
  checkObservations .fisherRatio second
  checkOutput .fisherRatio output
  discard (varianceBound first)
  discard (varianceBound second)
  batch do
    discard (narrow output .nonNegative)
    let variance₁ ← newVariance (name ++ ".variance_a") first precision
    let variance₂ ← newVariance (name ++ ".variance_b") second precision
    postRelation (.var output * .var variance₂) (.var variance₁)

end Store

end StatBounds
