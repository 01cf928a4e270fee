import StatBounds.Toml.Value

/-!
# TOML numbers

Integers of 64 bits in four bases and floats, as the whole text of an unquoted value.
-/

namespace StatBounds.Toml

-- Powers of integers are those of the core library.
attribute [local instance (2000)] instPowNat

def isDigit (c : Char) : Bool :=
  '0' ≤ c && c ≤ '9'

def digitValue? (c : Char) : Option Nat :=
  if isDigit c then some (c.toNat - '0'.toNat)
  else if 'a' ≤ c && c ≤ 'f' then some (c.toNat - 'a'.toNat + 10)
  else if 'A' ≤ c && c ≤ 'F' then some (c.toNat - 'A'.toNat + 10)
  else none

def groupDigits? (base : Nat) : List Char → Option (List Nat)
  | [] => none
  | [c] => do
      let d ← digitValue? c
      if d < base then some [d] else none
  | c :: '_' :: rest => do
      let d ← digitValue? c
      if d < base then some (d :: (← groupDigits? base rest)) else none
  | c :: rest => do
      let d ← digitValue? c
      if d < base then some (d :: (← groupDigits? base rest)) else none

def ofDigits (base : Nat) (digits : List Nat) : Nat :=
  digits.foldl (fun n d => n * base + d) 0

/-- The digits of a decimal integer: no zero in front of other digits. -/
def integerDigits? (text : List Char) : Option (List Nat) :=
  match text with
  | ['0'] => some [0]
  | '0' :: _ => none
  | _ => groupDigits? 10 text

def splitSign : List Char → Bool × List Char
  | '-' :: rest => (true, rest)
  | '+' :: rest => (false, rest)
  | text => (false, text)

/-- The number of a text in one of the bases that have a mark, or in decimal with a sign. -/
def anyInteger? : List Char → Option Int
  | '0' :: 'x' :: rest => (groupDigits? 16 rest).map fun digits => ofDigits 16 digits
  | '0' :: 'o' :: rest => (groupDigits? 8 rest).map fun digits => ofDigits 8 digits
  | '0' :: 'b' :: rest => (groupDigits? 2 rest).map fun digits => ofDigits 2 digits
  | text =>
      let (negative, text) := splitSign text
      (integerDigits? text).map fun digits =>
        if negative then -(ofDigits 10 digits : Int) else ofDigits 10 digits

def integer? (text : List Char) : Option Int := do
  let n ← anyInteger? text
  if -2 ^ (63 : Nat) ≤ n ∧ n < 2 ^ (63 : Nat) then some n else none

/-- The exponent after its letter. -/
def exponent? (text : List Char) : Option Int :=
  let (negative, text) := splitSign text
  (groupDigits? 10 text).map fun digits =>
    if negative then -(ofDigits 10 digits : Int) else ofDigits 10 digits

def opensExponent (c : Char) : Bool :=
  c == 'e' || c == 'E'

/-- A number with a fraction, an exponent or both, rounded to the nearest float. One that is too large
    is refused if positive and minus infinity if negative. -/
def decimalFloat? (text : List Char) : Option Float := do
  let (negative, text) := splitSign text
  let (mantissa, scale) := text.span fun c => !opensExponent c
  let (whole, fraction) := mantissa.span (· != '.')
  let whole ← integerDigits? whole
  let fraction ← match fraction with
    | [] => some []
    | _ :: digits => groupDigits? 10 digits
  let exponent ← match scale with
    | [] => if fraction.isEmpty then none else some 0
    | _ :: digits => exponent? digits
  let magnitude : Float := .ofModel
    (.ofScientific (ofDigits 10 (whole ++ fraction)) (exponent - fraction.length))
  if negative then some (-magnitude)
  else if magnitude.isInf then none
  else some magnitude

/-- A float, also one of the special ones. -/
def float? (text : List Char) : Option Float :=
  match splitSign text with
  | (negative, ['i', 'n', 'f']) =>
      some (.ofBits (if negative then 0xfff0000000000000 else 0x7ff0000000000000))
  | (_, ['n', 'a', 'n']) => some (.ofBits 0x7ff8000000000000)
  | _ => decimalFloat? text

end StatBounds.Toml
