import StatBounds.Interval.Basic
import StatBounds.Var

/-!
# What can go wrong

Operations fail with an `Error`, which tells the cause and the values that explain it, or with a
`Fault`, when the caller breaks a rule that every caller can keep. Wording is kept apart from the
causes, in `Error.message`.
-/

namespace StatBounds

/-- The four families of errors. -/
inductive ErrorKind where
  /-- A malformed call. -/
  | argument
  /-- The constraints have no solution. -/
  | infeasible
  /-- A bound that is no bound. -/
  | numericDomain
  /-- A configuration that cannot be read or does not make sense. -/
  | config
  deriving Repr, DecidableEq

def ErrorKind.heading : ErrorKind → String
  | argument => "invalid argument: "
  | infeasible => "infeasible: "
  | numericDomain => "numeric domain error: "
  | config => "config error: "

/-- The causes for which an operation fails. -/
inductive Error where
  -- Variables
  | precision (given : Float)
  | emptyValues (name : String)
  | reversedRange (name : String) (lo hi : Int)
  | invalidBounds (name : String) (lo hi : Float)
  | nameInUse (name : String)
  | unknownVariable (v : Var) (count : Nat)
  | realFiltered (name : String)
  | emptied (name : String)
  -- Constraints
  | emptyTarget (formula : String)
  | outsideTarget (formula : String) (target : Interval)
  | notBoolean (name : String)
  | emptyConjunction
  -- Bins
  | malformedBin (lb ub : Float)
  | fewBoundaries (count : Nat)
  | noBins (task : String)
  | overlappingBins (task : String) (lb₁ ub₁ lb₂ ub₂ : Float)
  -- Bin counts
  | countRanges (bins ranges : Nat)
  | itemInNoBin (item : Nat)
  | lowerCounts (lower items : Nat)
  | upperCounts (upper items : Nat)
  | noAssignment
  | binWithoutCount (bin : Nat)
  | countVariables (task : String) (bins counts : Nat)
  | realCount (name : String)
  | countOutOfReach (name : String) (items : Nat)
  -- Series and tables
  | seriesKind (task name kind : String)
  | seriesLengths (first second : Nat)
  | cellGrid (rows columns : Nat)
  | rowMarginals (expected given : Nat)
  | columnMarginals (expected given : Nat)
  -- Matrices
  | emptyMatrix
  | matrixShape (name : String) (size : Nat)
  | emptyGrid
  | gridBound (bound : Float)
  -- Statistics
  | fewObservations (statistic : String) (needed given : Nat)
  | integerOutput (statistic name : String)
  | emptyObservations
  | fewValues (count : Nat)
  | rangeWidth (width : Float)
  -- Configuration
  | ratio (given : Float)
  | noSteps
  | defaultPrecision (given : Float)
  | malformedConfig
  /-- An error raised by a user-defined step, with its own wording. -/
  | raised (kind : ErrorKind) (wording : String)
  deriving DecidableEq

namespace Error

def kind : Error → ErrorKind
  | emptied _ | outsideTarget .. | itemInNoBin _ | lowerCounts .. | upperCounts .. | noAssignment
  | binWithoutCount _ | countOutOfReach .. => .infeasible
  | invalidBounds .. | emptyTarget _ | gridBound _ | emptyObservations | rangeWidth _ =>
      .numericDomain
  | ratio _ | noSteps | defaultPrecision _ | malformedConfig => .config
  | raised kind _ => kind
  | _ => .argument

private def float (x : Float) : String := Binary64.text x

/-- A half-open interval inside a message. -/
private def halfOpen (lb ub : Float) : String := "[" ++ float lb ++ ", " ++ float ub ++ ")"

/-- The cause in words, without the heading of its family. -/
def wording : Error → String
  | precision given => s!"precision must be positive and finite, got {float given}"
  | emptyValues name => s!"new_int: domain of '{name}' must not be empty"
  | reversedRange name lo hi => s!"new_int_range: '{name}' has lo {lo} > hi {hi}"
  | invalidBounds name lo hi => s!"new_real: '{name}' has invalid bounds [{float lo}, {float hi}]"
  | nameInUse name => s!"variable name '{name}' is already in use"
  | unknownVariable v count => s!"unknown variable {v.text} (store has {count} variables)"
  | realFiltered name => s!"cannot filter values of real variable '{name}'"
  | emptied name => s!"domain of '{name}' is empty"
  | emptyTarget formula => s!"post_expr: empty target for {formula}"
  | outsideTarget formula target => s!"{formula} ∉ {target.text}"
  | notBoolean name => s!"post_reified: '{name}' is not a boolean variable"
  | emptyConjunction => "post_reified: conjunction must not be empty"
  | malformedBin lb ub => s!"bin interval {halfOpen lb ub} is empty or malformed"
  | fewBoundaries count => s!"bins_from_boundaries: need at least 2 boundaries, got {count}"
  | noBins task => s!"{task}: no bins given"
  | overlappingBins task lb₁ ub₁ lb₂ ub₂ =>
      s!"{task}: bins {halfOpen lb₁ ub₁} and {halfOpen lb₂ ub₂} overlap or are unsorted"
  | countRanges bins ranges => s!"bincounts: {bins} bins but {ranges} count ranges"
  | itemInNoBin item => s!"bincounts: item {item} lies in no bin"
  | lowerCounts lower items =>
      s!"bincounts: count lower bounds sum to {lower} but there are only {items} items"
  | upperCounts upper items =>
      s!"bincounts: count upper bounds sum to {upper} but there are {items} items"
  | noAssignment => "bincounts: no assignment of items to bins meets the count bounds"
  | binWithoutCount bin => s!"bincounts: bin {bin} has no feasible count"
  | countVariables task bins counts => s!"{task}: {bins} bins but {counts} count variables"
  | realCount name => s!"bincounts: count '{name}' must be an integer variable"
  | countOutOfReach name items => s!"bincounts: count '{name}' admits no value in [0, {items}]"
  | seriesKind task name kind => s!"{task}: '{name}' cannot be used in a {kind} series"
  | seriesLengths first second => s!"contingency: series lengths differ ({first} vs {second})"
  | cellGrid rows columns => s!"contingency: cell grid must be {rows}x{columns}"
  | rowMarginals expected given =>
      s!"contingency: expected {expected} row marginals, got {given}"
  | columnMarginals expected given =>
      s!"contingency: expected {expected} column marginals, got {given}"
  | emptyMatrix => "matrix: empty matrix"
  | matrixShape name size => s!"matrix: {name} must be {size}x{size}"
  | emptyGrid => "inverse_grid: n must be positive"
  | gridBound bound => s!"inverse_grid: invalid bound {float bound}"
  | fewObservations statistic needed given =>
      s!"{statistic}: need at least {needed} observations, got {given}"
  | integerOutput statistic name => s!"{statistic}: output '{name}' must be a real variable"
  | emptyObservations => "observation domains are empty"
  | fewValues count => s!"max_sample_variance: need n >= 2, got {count}"
  | rangeWidth width => s!"max_sample_variance: invalid range width {float width}"
  | ratio given => s!"ratio must be in [0, 1), got {float given}"
  | noSteps => "max_steps must be positive"
  | defaultPrecision given =>
      s!"default_precision must be positive and finite, got {float given}"
  | malformedConfig => "malformed document"
  | raised _ wording => wording

/-- The whole text of an error. -/
def message (e : Error) : String :=
  e.kind.heading ++ e.wording

end Error

/-- A broken rule of use, after which an operation has no answer. -/
inductive Fault where
  /-- Something was addressed at a position that does not exist. -/
  | outOfRange (index size : Nat)
  /-- A sum or a difference of counts does not fit in 64 bits. -/
  | overflow
  deriving Repr, DecidableEq

/-- Why an operation has no result. -/
inductive Failure where
  | error (e : Error)
  | fault (f : Fault)
  deriving DecidableEq

end StatBounds
