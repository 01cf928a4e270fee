import StatBounds.Error

/-!
# Propagation settings

Three settings, each of which may be left out and then has a default. They may be read from a document, whose format is
not fixed here: a reader tells what stands under a key.
-/

namespace StatBounds

/-- The settings of a store. -/
structure Config where
  /-- The part of its width that a real variable has to lose before its constraints run again. -/
  ratio : Option Float := none
  /-- The number of constraint invocations after which propagation stops. -/
  maxSteps : Option Nat := none
  /-- The precision of constants. -/
  defaultPrecision : Option Float := none
  deriving DecidableEq

/-- Whether a number can be a precision: it is positive and finite. -/
def validPrecision (x : Float) : Bool :=
  x.isFinite && x > 0.0

def checkPrecision (x : Float) : Except Error Unit :=
  if validPrecision x then .ok () else .error (.precision x)

namespace Config

/-- Check that a ratio that is given lies in `[0, 1)`. -/
def checkRatio : Option Float → Except Error Unit
  | some r => if 0.0 ≤ r ∧ r < 1.0 then .ok () else .error (.ratio r)
  | none => .ok ()

def checkSteps : Option Nat → Except Error Unit
  | some 0 => .error .noSteps
  | _ => .ok ()

def checkDefaultPrecision : Option Float → Except Error Unit
  | some p => if validPrecision p then .ok () else .error (.defaultPrecision p)
  | none => .ok ()

/-- Check every setting that is given. -/
def validate (c : Config) : Except Error Unit := do
  checkRatio c.ratio
  checkSteps c.maxSteps
  checkDefaultPrecision c.defaultPrecision

/-- What stands under a key of a document, as far as it can be a setting. -/
inductive Entry where
  | float (x : Float)
  | integer (n : Int)
  | other

/-- The float under a key, if the key is there. An integer may stand for one. -/
def floatOf : Option Entry → Except Error (Option Float)
  | none => .ok none
  | some (.float x) => .ok (some x)
  | some (.integer n) => .ok (some (Binary64.ofInt n))
  | some .other => .error .malformedConfig

/-- The number of something under a key, if the key is there. -/
def countOf : Option Entry → Except Error (Option Nat)
  | none => .ok none
  | some (.integer n) => if n ≥ 0 then .ok (some n.toNat) else .error .malformedConfig
  | some _ => .error .malformedConfig

/-- The settings in a document, checked. Keys of other names are ignored. -/
def ofDocument (read : String → Option (String → Option Entry)) (document : String) : Except Error Config := do
  match read document with
  | none => throw .malformedConfig
  | some entry =>
      let config : Config := {
        ratio := ← floatOf (entry "ratio")
        maxSteps := ← countOf (entry "max_steps")
        defaultPrecision := ← floatOf (entry "default_precision") }
      config.validate
      return config

/-- The ratio in effect, one hundredth unless given. -/
def effectiveRatio (c : Config) : Float :=
  c.ratio.getD 0.01

/-- The number of steps in effect, 100 000 unless given. -/
def effectiveMaxSteps (c : Config) : Nat :=
  c.maxSteps.getD 100000

/-- The precision of constants in effect, one millionth unless given. -/
def effectiveDefaultPrecision (c : Config) : Float :=
  c.defaultPrecision.getD 1e-6

end Config

end StatBounds
