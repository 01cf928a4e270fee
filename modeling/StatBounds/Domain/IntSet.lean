import StatBounds.Interval.Basic

/-!
# Finite sets of integers

The admissible values of a discrete variable, as a strictly increasing list. The values are 64-bit
integers; where one meets a binary64 number it is read as the nearest such number.
-/

namespace StatBounds

/-- Drop every element of a list that equals the one before it. -/
def dropRepeats : List Int → List Int
  | [] => []
  | [x] => [x]
  | x :: y :: rest => if x = y then dropRepeats (y :: rest) else x :: dropRepeats (y :: rest)

theorem mem_dropRepeats {x : Int} : ∀ {values : List Int}, x ∈ dropRepeats values ↔ x ∈ values
  | [] => by simp [dropRepeats]
  | [_] => by simp [dropRepeats]
  | y :: z :: rest => by
      have ih : x ∈ dropRepeats (z :: rest) ↔ x ∈ z :: rest := mem_dropRepeats
      by_cases h : y = z
      · simp [dropRepeats, h, ih]
      · simp [dropRepeats, h, ih]

/-- An ordered list without neighbouring repeats is strictly increasing. -/
theorem pairwise_lt_dropRepeats :
    ∀ {values : List Int}, values.Pairwise (· ≤ ·) → (dropRepeats values).Pairwise (· < ·)
  | [], _ => by simp [dropRepeats]
  | [_], _ => by simp [dropRepeats]
  | x :: y :: rest, ordered => by
      obtain ⟨least, ordered⟩ := List.pairwise_cons.1 ordered
      have ih := pairwise_lt_dropRepeats ordered
      by_cases h : x = y
      · simpa [dropRepeats, h] using ih
      · simp only [dropRepeats, h, if_false]
        refine List.pairwise_cons.2 ⟨fun z member => ?_, ih⟩
        have atLeast : x ≤ y := least y (by simp)
        rcases List.mem_cons.1 (mem_dropRepeats.1 member) with rfl | member
        · omega
        · have := (List.pairwise_cons.1 ordered).1 z member
          omega

/-- A finite set of integers, listed in strictly increasing order. -/
structure IntSet where
  values : List Int
  increasing : values.Pairwise (· < ·)
  deriving DecidableEq

namespace IntSet

def ofList (values : List Int) : IntSet where
  values := dropRepeats (values.mergeSort (· ≤ ·))
  increasing := pairwise_lt_dropRepeats <| by
    have ordered := @List.pairwise_mergeSort Int (fun x y => x ≤ y)
      (by simpa using fun a b c => Int.le_trans) (by simpa using Int.le_total) values
    simpa using ordered

/-- All integers from `lo` to `hi`, both included. -/
def range (lo hi : Int) : IntSet where
  values := (List.range (hi - lo + 1).toNat).map fun (k : Nat) => lo + k
  increasing := by
    rw [List.pairwise_map]
    exact List.pairwise_lt_range.imp (by omega)

def filter (keep : Int → Bool) (s : IntSet) : IntSet where
  values := s.values.filter keep
  increasing := s.increasing.filter keep

/-- Ask a test about integers until it refuses one, and tell which it was asked about, the last one first. The test may
    remember them. Nothing is told if it refuses none. -/
def askedUntilRefusal (keep : List Int → Int → Bool) (asked : List Int) : List Int → Option (List Int)
  | [] => none
  | n :: rest =>
      if keep asked n then askedUntilRefusal keep (n :: asked) rest else some (n :: asked)

/-- The integers that pass a test which may remember what it was asked about, the last one first. -/
def passing (keep : List Int → Int → Bool) (asked : List Int) : List Int → List Int
  | [] => []
  | n :: rest =>
      if keep asked n then n :: passing keep (n :: asked) rest else passing keep (n :: asked) rest

theorem sublist_passing (keep : List Int → Int → Bool) :
    ∀ (asked values : List Int), (passing keep asked values).Sublist values
  | _, [] => .slnil
  | asked, n :: rest => by
      unfold passing
      split
      · exact (sublist_passing keep _ rest).cons_cons n
      · exact (sublist_passing keep _ rest).cons n

/-- The members that pass a test which may remember what it was asked about. -/
def sift (keep : List Int → Int → Bool) (asked : List Int) (s : IntSet) : IntSet where
  values := passing keep asked s.values
  increasing := s.increasing.sublist (sublist_passing keep asked s.values)

def contains (s : IntSet) (v : Int) : Bool :=
  s.values.contains v

/-- Whether there is no member. -/
def isEmpty (s : IntSet) : Bool :=
  s.values.isEmpty

def size (s : IntSet) : Nat :=
  s.values.length

/-- The least member. -/
def min? (s : IntSet) : Option Int :=
  s.values.head?

/-- The greatest member. -/
def max? (s : IntSet) : Option Int :=
  s.values.getLast?

/-- The smallest interval that holds every member. -/
def hull (s : IntSet) : Interval :=
  match s.min?, s.max? with
  | some lo, some hi => .ofBounds (Binary64.ofInt lo) (Binary64.ofInt hi)
  | _, _ => .empty

/-- Whether a number is a member. A number beyond the 64-bit integers is taken for the nearest one. -/
def containsNumber (s : IntSet) (x : Float) : Bool :=
  match Binary64.toInt? x with
  | some n => s.contains (Binary64.clampInt64 n)
  | none => false

/-- Whether some member lies in `[lb, ub)`. The first member that is not below `lb` is the only
    candidate. -/
def meets (s : IntSet) (lb ub : Float) : Bool :=
  match (s.values.dropWhile fun v => Binary64.ofInt v < lb).head? with
  | some v => Binary64.ofInt v < ub
  | none => false

/-- Whether exactly one member is left. -/
def isFixed (s : IntSet) : Bool :=
  s.size == 1

/-- The members in brackets; of more than eight only the extremes and their number. -/
def summary (s : IntSet) : String :=
  if s.size ≤ 8 then
    "[" ++ ", ".intercalate (s.values.map toString) ++ "]"
  else
    "\x7b" ++ toString (s.min?.getD 0) ++ ".." ++ toString (s.max?.getD 0) ++ "; "
      ++ toString s.size ++ " values\x7d"

end IntSet

end StatBounds
