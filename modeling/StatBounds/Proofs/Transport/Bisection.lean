import Mathlib
import StatBounds.Transport.Basic

/-! # Bisection in machine words

A search by bisection keeps the number that it looks for between two bounds and halves their distance. Its runs are
given by their steps, each with the sums and differences that are computed in it. If the upper bound is a word and the
bounds do not span all words, then there is a run in which all of these are words, and it ends with the number.
-/

namespace StatBounds.Transportation

/-- An unsigned word of 64 bits holds the number. -/
def IsWord (n : Int) : Prop :=
  0 ≤ n ∧ n < 2 ^ 64

section

variable (holds : Nat → Except Fault Bool)

/-- A run of the search for the greatest number from `a` to `b` ends with `c`. The middle is rounded up, and all that
    is computed on the way is held by words. -/
inductive Ascends : (a b c : Nat) → Prop
  | met {a b : Nat} (met : ¬ a < b) : Ascends a b a
  | upper {a b c : Nat} (less : a < b) (room : IsWord ((b : Int) - a + 1)) (word : IsWord (a + ((b : Int) - a + 1) / 2))
      (yes : holds (a + (b - a + 1) / 2) = .ok true) (rest : Ascends (a + (b - a + 1) / 2) b c) : Ascends a b c
  | lower {a b c : Nat} (less : a < b) (room : IsWord ((b : Int) - a + 1)) (word : IsWord (a + ((b : Int) - a + 1) / 2))
      (before : IsWord (a + ((b : Int) - a + 1) / 2 - 1)) (no : holds (a + (b - a + 1) / 2) = .ok false)
      (rest : Ascends a (a + (b - a + 1) / 2 - 1) c) : Ascends a b c

/-- A run of the search for the least number from `a` to `b` ends with `c`. The middle is rounded down, and all that is
    computed on the way is held by words. -/
inductive Descends : (a b c : Nat) → Prop
  | met {a b : Nat} (met : ¬ a < b) : Descends a b a
  | lower {a b c : Nat} (less : a < b) (room : IsWord ((b : Int) - a)) (word : IsWord (a + ((b : Int) - a) / 2))
      (yes : holds (a + (b - a) / 2) = .ok true) (rest : Descends a (a + (b - a) / 2) c) : Descends a b c
  | upper {a b c : Nat} (less : a < b) (room : IsWord ((b : Int) - a)) (word : IsWord (a + ((b : Int) - a) / 2))
      (after : IsWord (a + ((b : Int) - a) / 2 + 1)) (no : holds (a + (b - a) / 2) = .ok false)
      (rest : Descends (a + (b - a) / 2 + 1) b c) : Descends a b c

end

variable {holds : Nat → Except Fault Bool} {a b c : Nat}

/-- The search for the greatest number finds what a run of it ends with. -/
theorem Ascends.greatest_eq (run : Ascends holds a b c) : greatest holds a b = .ok c := by
  induction run with
  | met met => rw [greatest, if_neg met]
  | upper less room word yes rest ih =>
      have narrow := room.2
      rw [greatest, if_pos less, if_pos (by omega)]
      simp only [yes, bind, Except.bind]
      exact ih
  | lower less room word before no rest ih =>
      have narrow := room.2
      rw [greatest, if_pos less, if_pos (by omega)]
      simp only [no, bind, Except.bind]
      exact ih

/-- The search for the least number finds what a run of it ends with. -/
theorem Descends.least_eq (run : Descends holds a b c) : least holds a b = .ok c := by
  induction run with
  | met met => rw [least, if_neg met]
  | lower less room word yes rest ih =>
      rw [least, if_pos less]
      simp only [yes, bind, Except.bind]
      exact ih
  | upper less room word after no rest ih =>
      rw [least, if_pos less]
      simp only [no, bind, Except.bind]
      exact ih

/-- Bisection finds the greatest number with a property that all smaller numbers have too. -/
theorem exists_ascends (P : Nat → Prop) (le : a ≤ b) (word : b < 2 ^ 64) (room : b - a + 1 < 2 ^ 64) (start : P a)
    (down : ∀ c d, c ≤ d → P d → P c)
    (decides : ∀ c, a ≤ c → c ≤ b → ∃ answer, holds c = .ok answer ∧ (answer = true ↔ P c)) :
    ∃ c, Ascends holds a b c ∧ a ≤ c ∧ c ≤ b ∧ P c ∧ ∀ d ≤ b, P d → d ≤ c := by
  induction width : b - a using Nat.strong_induction_on generalizing a b with
  | _ width ih =>
      by_cases done : a < b
      · obtain ⟨answer, decided, holds⟩ := decides (a + (b - a + 1) / 2) (by omega) (by omega)
        have middle : a < a + (b - a + 1) / 2 ∧ a + (b - a + 1) / 2 ≤ b := by omega
        have spans : IsWord ((b : Int) - a + 1) := ⟨by omega, by omega⟩
        have inWord : IsWord (a + ((b : Int) - a + 1) / 2) := ⟨by omega, by omega⟩
        cases answer with
        | true =>
            obtain ⟨c, run, low, high, attained, most⟩ := ih (b - (a + (b - a + 1) / 2)) (by omega) middle.2 word
              (by omega) (holds.1 rfl) (fun c low high => decides c (by omega) high) rfl
            exact ⟨c, .upper done spans inWord decided run, by omega, high, attained, most⟩
        | false =>
            have fails : ¬ P (a + (b - a + 1) / 2) := fun member => Bool.noConfusion (holds.2 member)
            obtain ⟨c, run, low, high, attained, most⟩ := ih (a + (b - a + 1) / 2 - 1 - a) (by omega)
              (by omega) (by omega) (by omega) start (fun c low high => decides c low (by omega)) rfl
            refine ⟨c, .lower done spans inWord ⟨by omega, by omega⟩ decided run, low, by omega, attained,
              fun d le member => ?_⟩
            by_contra greater
            exact fails (down _ d (by by_contra less; exact greater (most d (by omega) member)) member)
      · obtain rfl : a = b := by omega
        exact ⟨a, .met done, le_rfl, le_rfl, start, fun d le _ => le⟩

/-- Bisection finds the least number with a property that all greater numbers have too. -/
theorem exists_descends (P : Nat → Prop) (le : a ≤ b) (word : b < 2 ^ 64) (last : P b)
    (up : ∀ c d, c ≤ d → P c → P d)
    (decides : ∀ c, a ≤ c → c ≤ b → ∃ answer, holds c = .ok answer ∧ (answer = true ↔ P c)) :
    ∃ c, Descends holds a b c ∧ a ≤ c ∧ c ≤ b ∧ P c ∧ ∀ d, a ≤ d → P d → c ≤ d := by
  induction width : b - a using Nat.strong_induction_on generalizing a b with
  | _ width ih =>
      by_cases done : a < b
      · obtain ⟨answer, decided, holds⟩ := decides (a + (b - a) / 2) (by omega) (by omega)
        have middle : a ≤ a + (b - a) / 2 ∧ a + (b - a) / 2 < b := by omega
        have spans : IsWord ((b : Int) - a) := ⟨by omega, by omega⟩
        have inWord : IsWord (a + ((b : Int) - a) / 2) := ⟨by omega, by omega⟩
        cases answer with
        | true =>
            obtain ⟨c, run, low, high, attained, fewest⟩ := ih (a + (b - a) / 2 - a) (by omega) middle.1
              (by omega) (holds.1 rfl) (fun c low high => decides c low (by omega)) rfl
            exact ⟨c, .lower done spans inWord decided run, low, by omega, attained, fewest⟩
        | false =>
            have fails : ¬ P (a + (b - a) / 2) := fun member => Bool.noConfusion (holds.2 member)
            obtain ⟨c, run, low, high, attained, fewest⟩ := ih (b - (a + (b - a) / 2 + 1)) (by omega)
              (by omega) word last (fun c low high => decides c (by omega) high) rfl
            refine ⟨c, .upper done spans inWord ⟨by omega, by omega⟩ decided run, by omega, high, attained,
              fun d le member => ?_⟩
            by_contra less
            exact fails (up d _ (by by_contra greater; exact less (fewest d (by omega) member)) member)
      · obtain rfl : a = b := by omega
        exact ⟨a, .met done, le_rfl, le_rfl, last, fun d le _ => le⟩

end StatBounds.Transportation
