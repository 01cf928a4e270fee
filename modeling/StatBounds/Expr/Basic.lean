import StatBounds.Binary64.Basic
import StatBounds.Decimal.Positional
import StatBounds.Var

/-!
# Algebraic expressions

Trees over variables and constants. The text of an expression names variables by position and puts
every binary operation in parentheses, so it can be read back without precedences.
-/

namespace StatBounds

/-- An algebraic expression over the variables of a store. -/
inductive Expr where
  | var (v : Var)
  | const (c : Float)
  | neg (a : Expr)
  | add (a b : Expr)
  | sub (a b : Expr)
  | mul (a b : Expr)
  | div (a b : Expr)
  | sqr (a : Expr)
  | sqrt (a : Expr)
  /-- The sum of any number of terms. -/
  | sum (terms : List Expr)

namespace Expr

instance : Neg Expr := ⟨neg⟩
instance : Add Expr := ⟨add⟩
instance : Sub Expr := ⟨sub⟩
instance : Mul Expr := ⟨mul⟩
instance : Div Expr := ⟨div⟩

/-- The sum of the terms, where no terms add up to the constant zero. -/
def total : List Expr → Expr
  | [] => const 0.0
  | terms => sum terms

mutual

/-- The variable of every leaf, from left to right. -/
def occurrences : Expr → List Var
  | var v => [v]
  | const _ => []
  | neg a | sqr a | sqrt a => a.occurrences
  | add a b | sub a b | mul a b | div a b => a.occurrences ++ b.occurrences
  | sum terms => occurrencesAll terms

/-- The variable of every leaf of a list of expressions. -/
def occurrencesAll : List Expr → List Var
  | [] => []
  | e :: rest => e.occurrences ++ occurrencesAll rest

end

/-- The distinct variables, in the order of their first occurrence. -/
def vars (e : Expr) : List Var :=
  e.occurrences.eraseDups

mutual

def text : Expr → String
  | var v => "x" ++ toString v.index
  | const c => Binary64.text c
  | neg a => "-" ++ a.text
  | add a b => "(" ++ a.text ++ " + " ++ b.text ++ ")"
  | sub a b => "(" ++ a.text ++ " - " ++ b.text ++ ")"
  | mul a b => "(" ++ a.text ++ " * " ++ b.text ++ ")"
  | div a b => "(" ++ a.text ++ " / " ++ b.text ++ ")"
  | sqr a => "sqr(" ++ a.text ++ ")"
  | sqrt a => "sqrt(" ++ a.text ++ ")"
  | sum terms => "sum(" ++ ", ".intercalate (textAll terms) ++ ")"

def textAll : List Expr → List String
  | [] => []
  | e :: rest => e.text :: textAll rest

end

end Expr

end StatBounds
