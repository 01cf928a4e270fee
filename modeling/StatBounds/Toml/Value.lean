/-!
# TOML values and tables

The data of a TOML document. A table remembers how it was made, because that decides how it may still
grow: a table may be named by one header only, dotted keys extend only tables made by dotted keys, and
inline tables are closed.
-/

namespace StatBounds.Toml

/-- How a table was made. -/
inductive Origin where
  /-- By its own header, as the root, or as an element of an array of tables. -/
  | header
  /-- As a parent in the header of another table. -/
  | parent
  /-- As a parent in a dotted key. -/
  | dotted
  /-- Between braces. -/
  | inlined
  deriving Repr, DecidableEq

/-- A TOML value. -/
inductive Value where
  | string (text : String)
  | integer (n : Int)
  | float (x : Float)
  | boolean (b : Bool)
  /-- A date, a time or both, as written. -/
  | datetime (text : String)
  | array (elements : List Value)
  | table (origin : Origin) (entries : List (String × Value))
  /-- An array of tables made by headers, the latest element first. -/
  | tables (elements : List (List (String × Value)))

/-- The entries of a table, in the order of their first mention. -/
abbrev Entries := List (String × Value)

namespace Entries

def replace (key : String) (value : Value) (entries : Entries) : Entries :=
  entries.map fun entry => if entry.1 == key then (key, value) else entry

/-- Change the table that a path leads to. Missing tables on the way are made, as parents or by dotted
    keys; a path leads through the latest element of an array of tables. -/
def descend? (byDots : Bool) (change : Origin → Entries → Option Entries) :
    Origin → List String → Entries → Option Entries
  | origin, [], entries => change origin entries
  | _, key :: path, entries =>
      match entries.lookup key with
      | none => do
          let origin := if byDots then Origin.dotted else Origin.parent
          let inner ← descend? byDots change origin path []
          some (entries ++ [(key, .table origin inner)])
      | some (.table origin inner) =>
          if origin = .inlined ∨ (byDots ∧ origin = .header) then
            none
          else do
            let inner ← descend? byDots change origin path inner
            some (replace key (.table origin inner) entries)
      | some (.tables (latest :: earlier)) => do
          let latest ← descend? byDots change .header path latest
          some (replace key (.tables (latest :: earlier)) entries)
      | some _ => none

/-- Add a value under a dotted key, which must not have one yet. Its table has to be made by dotted
    keys iff the key has dots. -/
def insert? (origin : Origin) (path : List String) (key : String) (value : Value)
    (entries : Entries) : Option Entries :=
  descend? true
    (fun origin entries =>
      if origin = .dotted ↔ path = [] then none
      else if (entries.lookup key).isSome then none
      else some (entries ++ [(key, value)]))
    origin path entries

/-- Begin the table of a header. It may exist already as the parent of other tables. -/
def beginTable? (path : List String) (key : String) (root : Entries) : Option Entries :=
  descend? false
    (fun _ entries =>
      match entries.lookup key with
      | none => some (entries ++ [(key, .table .header [])])
      | some (.table .parent inner) => some (replace key (.table .header inner) entries)
      | some _ => none)
    .header path root

/-- Begin a new element of the array of tables of a header. -/
def beginElement? (path : List String) (key : String) (root : Entries) : Option Entries :=
  descend? false
    (fun _ entries =>
      match entries.lookup key with
      | none => some (entries ++ [(key, .tables [[]])])
      | some (.tables elements) => some (replace key (.tables ([] :: elements)) entries)
      | some _ => none)
    .header path root

/-- Add a value under a dotted key to the table that the latest header began. -/
def insertUnder? (header : List String) (path : List String) (key : String) (value : Value)
    (root : Entries) : Option Entries :=
  descend? false (fun origin entries => insert? origin path key value entries) .header header root

end Entries

end StatBounds.Toml
