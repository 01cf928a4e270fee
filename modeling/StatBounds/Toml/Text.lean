import StatBounds.Toml.Number

/-!
# TOML text: blanks, comments, strings and keys

Readers take a list of characters and return what they found with the rest, or nothing if the text is
malformed.
-/

namespace StatBounds.Toml

abbrev Reader (α : Type) := List Char → Option (α × List Char)

def isBlank (c : Char) : Bool :=
  c == ' ' || c == '\t'

/-- Whether a character may stand in a comment or between quotes: no control character but the tab. -/
def isPrintable (c : Char) : Bool :=
  c == '\t' || (' ' ≤ c && c.toNat != 0x7f)

def skipBlanks (text : List Char) : List Char :=
  text.dropWhile isBlank

/-- Drop one end of a line, if there is one in front. -/
def newline? : List Char → Option (List Char)
  | '\n' :: rest => some rest
  | '\r' :: '\n' :: rest => some rest
  | _ => none

/-- Drop the characters of a comment, if there is one in front. -/
def skipComment : List Char → List Char
  | '#' :: rest => rest.dropWhile isPrintable
  | text => text

def endOfLine? (text : List Char) : Option (List Char) :=
  match skipComment (skipBlanks text) with
  | [] => some []
  | rest => newline? rest

/-- Drop blanks, comments and ends of lines, of which there are at most `fuel`. -/
def skipLines : (fuel : Nat) → List Char → List Char
  | 0, text => text
  | fuel + 1, text =>
      let rest := skipComment (skipBlanks text)
      match newline? rest with
      | some rest => skipLines fuel rest
      | none => rest

/-- The character of a number, if it has one. -/
def char? (digits : List Char) : Option Char := do
  let values ← digits.mapM digitValue?
  let code := ofDigits 16 values
  if code.isValidChar then some (.ofNat code) else none

/-- Read what follows the backslash of an escape sequence. -/
def escape? : Reader Char
  | 'b' :: rest => some ('\x08', rest)
  | 't' :: rest => some ('\t', rest)
  | 'n' :: rest => some ('\n', rest)
  | 'f' :: rest => some ('\x0c', rest)
  | 'r' :: rest => some ('\r', rest)
  | '"' :: rest => some ('"', rest)
  | '\\' :: rest => some ('\\', rest)
  | 'u' :: rest => do
      if rest.length < 4 then none else some (← char? (rest.take 4), rest.drop 4)
  | 'U' :: rest => do
      if rest.length < 8 then none else some (← char? (rest.take 8), rest.drop 8)
  | _ => none

/-- Read a string of one line after its opening quote. -/
def basicString? : (fuel : Nat) → Reader (List Char)
  | 0, _ => none
  | _, [] => none
  | _, '"' :: rest => some ([], rest)
  | fuel + 1, '\\' :: rest => do
      let (c, rest) ← escape? rest
      let (text, rest) ← basicString? fuel rest
      some (c :: text, rest)
  | fuel + 1, c :: rest => do
      if isPrintable c then
        let (text, rest) ← basicString? fuel rest
        some (c :: text, rest)
      else
        none

/-- Read a string of one line without escapes after its opening quote. -/
def literalString? : Reader (List Char)
  | [] => none
  | '\'' :: rest => some ([], rest)
  | c :: rest => do
      if isPrintable c then
        let (text, rest) ← literalString? rest
        some (c :: text, rest)
      else
        none

/-- A run of quotes in a string of several lines: fewer than three belong to the string, and of three
    to five the last three end it. -/
inductive Quotes where
  | inside (count : Nat) (rest : List Char)
  | ending (count : Nat) (rest : List Char)
  | tooMany

def quotes (quote : Char) (text : List Char) : Quotes :=
  let count := (text.takeWhile (· == quote)).length
  let rest := text.drop count
  if count < 3 then .inside count rest
  else if count ≤ 5 then .ending (count - 3) rest
  else .tooMany

/-- Drop a backslash's end of line, with all blanks and ends of lines after it. -/
def lineContinuation? (fuel : Nat) (text : List Char) : Option (List Char) := do
  let rest ← newline? (skipBlanks text)
  some (skip fuel rest)
where
  /-- Drop blanks and ends of lines. -/
  skip : Nat → List Char → List Char
    | 0, text => text
    | fuel + 1, text =>
        match newline? (skipBlanks text) with
        | some rest => skip fuel rest
        | none => skipBlanks text

/-- Read a string of several lines after its opening quotes. Escapes are read only between double
    quotes. -/
def longString? (quote : Char) : (fuel : Nat) → Reader (List Char)
  | 0, _ => none
  | _, [] => none
  | fuel + 1, c :: rest =>
      if c == quote then
        match quotes quote (c :: rest) with
        | .inside count rest => do
            let (text, rest) ← longString? quote fuel rest
            some (List.replicate count quote ++ text, rest)
        | .ending count rest => some (List.replicate count quote, rest)
        | .tooMany => none
      else if c == '\\' && quote == '"' then
        match lineContinuation? fuel rest with
        | some rest => longString? quote fuel rest
        | none => do
            let (c, rest) ← escape? rest
            let (text, rest) ← longString? quote fuel rest
            some (c :: text, rest)
      else if isPrintable c then do
        let (text, rest) ← longString? quote fuel rest
        some (c :: text, rest)
      else do
        let rest ← newline? (c :: rest)
        let (text, rest) ← longString? quote fuel rest
        some ('\n' :: text, rest)

/-- The text without an end of line directly after the opening quotes. -/
def dropFirstNewline (text : List Char) : List Char :=
  (newline? text).getD text

def string? (text : List Char) : Option (String × List Char) := do
  let (content, rest) ← match text with
    | '"' :: '"' :: '"' :: rest => longString? '"' (rest.length + 1) (dropFirstNewline rest)
    | '\'' :: '\'' :: '\'' :: rest => longString? '\'' (rest.length + 1) (dropFirstNewline rest)
    | '"' :: rest => basicString? (rest.length + 1) rest
    | '\'' :: rest => literalString? rest
    | _ => none
  some (.ofList content, rest)

/-- Whether a character may stand in a key without quotes. -/
def isBare (c : Char) : Bool :=
  isDigit c || ('a' ≤ c && c ≤ 'z') || ('A' ≤ c && c ≤ 'Z') || c == '-' || c == '_'

/-- Read a key without dots. -/
def simpleKey? : Reader String
  | '"' :: rest => do
      let (content, rest) ← basicString? (rest.length + 1) rest
      some (.ofList content, rest)
  | '\'' :: rest => do
      let (content, rest) ← literalString? rest
      some (.ofList content, rest)
  | text =>
      match text.span isBare with
      | ([], _) => none
      | (content, rest) => some (.ofList content, rest)

/-- Read the parts of a key, between dots with blanks around them. -/
def keyParts? : (fuel : Nat) → Reader (List String)
  | 0, _ => none
  | fuel + 1, text => do
      let (part, rest) ← simpleKey? (skipBlanks text)
      match skipBlanks rest with
      | '.' :: rest =>
          let (parts, rest) ← keyParts? fuel rest
          some (part :: parts, rest)
      | rest => some ([part], rest)

/-- Arrays, inline tables and dotted keys may be nested less than this deep. -/
def nestingLimit : Nat := 80

/-- Read a key, as the path of the tables that it leads through and its last part. -/
def key? (text : List Char) : Option ((List String × String) × List Char) := do
  let (parts, rest) ← keyParts? (text.length + 1) text
  if parts.length < nestingLimit then
    some ((parts.dropLast, ← parts.getLast?), rest)
  else
    none

end StatBounds.Toml
