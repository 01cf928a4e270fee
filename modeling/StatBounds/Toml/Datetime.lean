import StatBounds.Toml.Number

/-!
# TOML dates and times

Which texts are dates, times, or dates with times and offsets. Nothing is computed with them, so they
are only checked.
-/

namespace StatBounds.Toml

def twoDigits? (a b : Char) : Option Nat :=
  if isDigit a && isDigit b then groupDigits? 10 [a, b] |>.map (ofDigits 10) else none

def daysOfMonth (year month : Nat) : Nat :=
  if month = 2 then
    if year % 4 = 0 ∧ (year % 100 ≠ 0 ∨ year % 400 = 0) then 29 else 28
  else if month = 4 ∨ month = 6 ∨ month = 9 ∨ month = 11 then 30
  else 31

def dropDate? : List Char → Option (List Char)
  | y₁ :: y₂ :: y₃ :: y₄ :: '-' :: m₁ :: m₂ :: '-' :: d₁ :: d₂ :: rest => do
      let century ← twoDigits? y₁ y₂
      let year ← twoDigits? y₃ y₄
      let month ← twoDigits? m₁ m₂
      let day ← twoDigits? d₁ d₂
      if 1 ≤ month ∧ month ≤ 12 ∧ 1 ≤ day ∧ day ≤ daysOfMonth (century * 100 + year) month then
        some rest
      else
        none
  | _ => none

def dropMinutes? : List Char → Option (List Char)
  | h₁ :: h₂ :: ':' :: m₁ :: m₂ :: rest => do
      let hour ← twoDigits? h₁ h₂
      let minute ← twoDigits? m₁ m₂
      if hour ≤ 23 ∧ minute ≤ 59 then some rest else none
  | _ => none

/-- Read a time of day with seconds and perhaps a fraction, and return the rest. A leap second may be
    the sixtieth. -/
def dropTime? (text : List Char) : Option (List Char) := do
  match ← dropMinutes? text with
  | ':' :: s₁ :: s₂ :: rest =>
      let second ← twoDigits? s₁ s₂
      if second > 60 then
        none
      else match rest with
        | '.' :: c :: rest => if isDigit c then some (rest.dropWhile isDigit) else none
        | _ => some rest
  | _ => none

def isOffset : List Char → Bool
  | [] | ['Z'] | ['z'] => true
  | '+' :: rest | '-' :: rest => dropMinutes? rest == some []
  | _ => false

def isDate (text : List Char) : Bool :=
  dropDate? text == some []

/-- Whether a text is a date, a time, or a date and a time with or without an offset. -/
def isDatetime (text : List Char) : Bool :=
  match dropDate? text with
  | some [] => true
  | some (c :: rest) =>
      (c == 'T' || c == 't' || c == ' ') && ((dropTime? rest).map isOffset).getD false
  | none => dropTime? text == some []

end StatBounds.Toml
