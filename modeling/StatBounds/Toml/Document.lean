import StatBounds.Toml.Datetime
import StatBounds.Toml.Text

/-!
# TOML documents

Reading values and whole documents. A document is a list of lines, each of which is empty, begins a
table, or gives a key a value.
-/

namespace StatBounds.Toml

/-- Whether a character may stand in a value without quotes or brackets. -/
def isUnquoted (c : Char) : Bool :=
  isBare c || c == '+' || c == '.' || c == ':'

/-- The value of an unquoted text. -/
def unquoted? (text : List Char) : Option Value :=
  if text = ['t', 'r', 'u', 'e'] then some (.boolean true)
  else if text = ['f', 'a', 'l', 's', 'e'] then some (.boolean false)
  else if isDatetime text then some (.datetime (.ofList text))
  else match float? text with
    | some x => some (.float x)
    | none => (integer? text).map .integer

/-- Read an unquoted value. A date may be followed by a blank and a time. -/
def readUnquoted? (text : List Char) : Option (Value × List Char) := do
  let (first, rest) := text.span isUnquoted
  let (word, rest) := match rest with
    | ' ' :: c :: more =>
        if isDate first && isDigit c then
          let (second, rest) := (c :: more).span isUnquoted
          (first ++ ' ' :: second, rest)
        else
          (first, rest)
    | _ => (first, rest)
  some (← unquoted? word, rest)

/-- Read the elements of an array after its bracket or a comma. Lines may end anywhere, and a comma may
    follow the last element. -/
def elements? (element : Reader Value) : (fuel : Nat) → Reader (List Value)
  | 0, _ => none
  | fuel + 1, text =>
      match skipLines text.length text with
      | ']' :: rest => some ([], rest)
      | text => do
          let (value, rest) ← element text
          match skipLines rest.length rest with
          | ',' :: rest =>
              let (values, rest) ← elements? element fuel rest
              some (value :: values, rest)
          | ']' :: rest => some ([value], rest)
          | _ => none

def pair? (value : Reader Value) (text : List Char) :
    Option ((List String × String × Value) × List Char) := do
  let ((path, key), rest) ← key? text
  match skipBlanks rest with
  | '=' :: rest =>
      let (v, rest) ← value (skipBlanks rest)
      some ((path, key, v), rest)
  | _ => none

/-- Read the pairs of an inline table, of which there is at least one, up to its brace. -/
def pairs? (value : Reader Value) : (fuel : Nat) → Entries → Reader Entries
  | 0, _, _ => none
  | fuel + 1, entries, text => do
      let ((path, key, v), rest) ← pair? value text
      let entries ← entries.insert? .inlined path key v
      match skipBlanks rest with
      | ',' :: rest => pairs? value fuel entries rest
      | '}' :: rest => some (entries, rest)
      | _ => none

/-- Read a value, with arrays and inline tables nested at most `depth` deep. -/
def value? : (depth : Nat) → Reader Value
  | _, [] => none
  | depth, c :: rest =>
      if c == '"' || c == '\'' then
        (string? (c :: rest)).map fun (text, rest) => (.string text, rest)
      else if c == '[' then
        match depth with
        | 0 => none
        | depth + 1 =>
            (elements? (value? depth) (rest.length + 1) rest).map fun (values, rest) =>
              (.array values, rest)
      else if c == '{' then
        match depth with
        | 0 => none
        | depth + 1 =>
            match skipBlanks rest with
            | '}' :: rest => some (.table .inlined [], rest)
            | _ =>
                (pairs? (value? depth) (rest.length + 1) [] rest).map fun (entries, rest) =>
                  (.table .inlined entries, rest)
      else
        readUnquoted? (c :: rest)

/-- A document that has been read in part: all tables, and the path to the one that the latest header
    began. -/
structure Document where
  root : Entries
  header : List String

/-- Read a header after its brackets, up to the closing brackets. -/
def header? (closing : List Char) (text : List Char) :
    Option ((List String × String) × List Char) := do
  let (key, rest) ← key? text
  let rest := skipBlanks rest
  if closing.isPrefixOf rest then some (key, rest.drop closing.length) else none

/-- Read one statement that is not empty, up to the end of its line. -/
def statement? (document : Document) : List Char → Option (Document × List Char)
  | '[' :: '[' :: text => do
      let ((path, key), rest) ← header? [']', ']'] text
      let root ← document.root.beginElement? path key
      some ({ root, header := path ++ [key] }, rest)
  | '[' :: text => do
      let ((path, key), rest) ← header? [']'] text
      let root ← document.root.beginTable? path key
      some ({ root, header := path ++ [key] }, rest)
  | text => do
      let ((path, key, value), rest) ← pair? (value? (nestingLimit - 1)) text
      let root ← document.root.insertUnder? document.header path key value
      some ({ document with root }, rest)

/-- Read statements until the end of the text. -/
def statements? : (fuel : Nat) → Document → List Char → Option Document
  | 0, _, _ => none
  | fuel + 1, document, text =>
      match skipLines text.length text with
      | [] => some document
      | text => do
          let (document, rest) ← statement? document text
          statements? fuel document (← endOfLine? rest)

/-- The entries of the root table of a document. A byte order mark in front is no part of it. -/
def document? (text : String) : Option Entries :=
  let chars := match text.toList with
    | '\ufeff' :: rest => rest
    | chars => chars
  (statements? (chars.length + 1) { root := [], header := [] } chars).map Document.root

end StatBounds.Toml
