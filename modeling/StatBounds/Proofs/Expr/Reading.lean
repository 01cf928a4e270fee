import StatBounds.Constraint.Formula
import StatBounds.Proofs.Binary64.Text
import StatBounds.Proofs.Expr.Sweep
import StatBounds.Proofs.Interval.Enclosure

/-! # Expressions are told apart by their text

A reader that looks at the front of a text recovers the expression, however the text goes on behind it: a binary
operation stands in parentheses, a call ends with one, and a variable or constant ends before the next blank, comma or
closing parenthesis. What the text does not tell is whether a sign belongs to a constant or negates one.
-/

namespace StatBounds

/-- Also where no number is given, and the interval is the whole line. -/
theorem Interval.neg_point (c : Float) : -Interval.point c = Interval.point (-c) := by
  change Interval.neg _ = _
  rw [Interval.neg, (Interval.encloses_point c).notEmpty, if_neg Bool.false_ne_true]
  by_cases number : Binary64.IsNumber c
  · rw [Interval.point, Interval.ofBounds_of_isNumber number number, Interval.point,
      Interval.ofBounds_of_isNumber (Binary64.isNumber_neg.2 number) (Binary64.isNumber_neg.2 number)]
  · have nan : c.isNaN = true := Bool.not_eq_false _ ▸ number
    have mirrored : (-c).isNaN = true := Bool.not_eq_false _ ▸ mt Binary64.isNumber_neg.1 number
    simp only [Interval.point, Interval.ofBounds, nan, mirrored, if_true, Binary64.float_neg_neg]

namespace Expr

/-! ## Signs in front of constants -/

/-- The negation of an expression, which is a constant if the expression is one. -/
def negated : Expr → Expr
  | const c => const (-c)
  | e => neg e

mutual

/-- The expression with each negated constant replaced by the constant of the other sign, operands before operators. -/
def foldSigns : Expr → Expr
  | var v => var v
  | const c => const c
  | neg a => a.foldSigns.negated
  | add a b => add a.foldSigns b.foldSigns
  | sub a b => sub a.foldSigns b.foldSigns
  | mul a b => mul a.foldSigns b.foldSigns
  | div a b => div a.foldSigns b.foldSigns
  | sqr a => sqr a.foldSigns
  | sqrt a => sqrt a.foldSigns
  | sum terms => sum (foldSignsAll terms)

def foldSignsAll : List Expr → List Expr
  | [] => []
  | e :: rest => e.foldSigns :: foldSignsAll rest

end

variable {number : List Char → Float} {bounds : Var → Interval} {steps : Nat} {cs rest : List Char}

theorem occurrences_negated (e : Expr) : e.negated.occurrences = e.occurrences := by
  cases e <;> rfl

theorem evaluate_negated (e : Expr) : e.negated.evaluate bounds = -e.evaluate bounds := by
  cases e with
  | const c => exact (Interval.neg_point c).symm
  | _ => rfl

mutual

theorem occurrences_foldSigns : ∀ e : Expr, e.foldSigns.occurrences = e.occurrences
  | var _ | const _ => rfl
  | neg a => by rw [foldSigns, occurrences_negated, occurrences_foldSigns a, occurrences]
  | sqr a | sqrt a => occurrences_foldSigns a
  | add a b | sub a b | mul a b | div a b => by
      simp only [foldSigns, occurrences, occurrences_foldSigns a, occurrences_foldSigns b]
  | sum terms => by rw [foldSigns, occurrences, occurrencesAll_foldSigns terms, occurrences]

theorem occurrencesAll_foldSigns : ∀ es : List Expr, occurrencesAll (foldSignsAll es) = occurrencesAll es
  | [] => rfl
  | e :: rest => by
      rw [foldSignsAll, occurrencesAll, occurrences_foldSigns e, occurrencesAll_foldSigns rest, occurrencesAll]

end

mutual

theorem evaluate_foldSigns : ∀ e : Expr, e.foldSigns.evaluate bounds = e.evaluate bounds
  | var _ | const _ => rfl
  | neg a => by rw [foldSigns, evaluate_negated, evaluate_foldSigns a, evaluate]
  | sqr a | sqrt a => by simp only [foldSigns, evaluate, evaluate_foldSigns a]
  | add a b | sub a b | mul a b | div a b => by
      simp only [foldSigns, evaluate, evaluate_foldSigns a, evaluate_foldSigns b]
  | sum terms => by rw [foldSigns, evaluate, evaluateAll_foldSigns terms, evaluate]

theorem evaluateAll_foldSigns : ∀ es : List Expr, evaluateAll bounds (foldSignsAll es) = evaluateAll bounds es
  | [] => rfl
  | e :: rest => by
      rw [foldSignsAll, evaluateAll, evaluate_foldSigns e, evaluateAll_foldSigns rest, evaluateAll]

end

/-! ## Words -/

def closes (c : Char) : Bool :=
  c ∈ [' ', ',', ')']

def word (cs : List Char) : List Char :=
  cs.takeWhile (!closes ·)

def afterWord (cs : List Char) : List Char :=
  cs.dropWhile (!closes ·)

def Ends (rest : List Char) : Prop :=
  ∀ c ∈ rest.head?, closes c = true

theorem ends_nil : Ends [] := by
  rintro _ ⟨⟩

theorem ends_cons {c : Char} (closing : closes c = true) : Ends (c :: rest) := by
  rintro _ ⟨⟩
  exact closing

theorem word_append (inside : ∀ c ∈ cs, closes c = false) (ends : Ends rest) :
    word (cs ++ rest) = cs ∧ afterWord (cs ++ rest) = rest := by
  have before : ∀ c ∈ cs, (!closes c) = true := fun c member => by rw [inside c member]; rfl
  rw [word, afterWord, List.takeWhile_append_of_pos before, List.dropWhile_append_of_pos before]
  cases rest with
  | nil => exact ⟨List.append_nil _, rfl⟩
  | cons c rest =>
      have closing := ends c rfl
      simp [closing]

theorem closes_eq_false_of_isDigit {c : Char} (digit : c.isDigit = true) : closes c = false := by
  rw [closes, decide_eq_false_iff_not]
  intro member
  simp only [List.mem_cons, List.not_mem_nil, or_false] at member
  rcases member with rfl | rfl | rfl <;> exact absurd digit (by decide)

theorem closes_eq_false (unsigned : Binary64.Unsigned cs) {c : Char} (member : c ∈ cs) : closes c = false := by
  rcases unsigned.chars c member with digit | letter
  · exact closes_eq_false_of_isDigit digit
  · have others : ∀ c ∈ ['.', 'i', 'n', 'f', 'N', 'a'], closes c = false := by simp [closes]
    exact others c letter

/-! ## The reader -/

def operation? : List Char → Option ((Expr → Expr → Expr) × List Char)
  | ' ' :: '+' :: ' ' :: rest => some (add, rest)
  | ' ' :: '-' :: ' ' :: rest => some (sub, rest)
  | ' ' :: '*' :: ' ' :: rest => some (mul, rest)
  | ' ' :: '/' :: ' ' :: rest => some (div, rest)
  | _ => none

/-- The text behind the comma between two terms, if there is one. -/
def skipComma : List Char → List Char
  | ',' :: ' ' :: rest => rest
  | rest => rest

mutual

/-- The expression at the front of a text, with its signs folded, and what follows it, by a bounded number of steps. The
    constants are read by a given function. -/
def read? (number : List Char → Float) : Nat → List Char → Option (Expr × List Char)
  | 0, _ => none
  | steps + 1, '-' :: cs => do
      let (a, rest) ← read? number steps cs
      return (a.negated, rest)
  | _ + 1, 'x' :: cs => some (var ⟨Nat.ofDigitChars 10 (word cs) 0⟩, afterWord cs)
  | steps + 1, '(' :: cs => do
      let (a, rest) ← read? number steps cs
      let (node, rest) ← operation? rest
      let (b, rest) ← read? number steps rest
      return (node a b, rest.drop 1)
  | steps + 1, 's' :: 'q' :: 'r' :: '(' :: cs => do
      let (a, rest) ← read? number steps cs
      return (sqr a, rest.drop 1)
  | steps + 1, 's' :: 'q' :: 'r' :: 't' :: '(' :: cs => do
      let (a, rest) ← read? number steps cs
      return (sqrt a, rest.drop 1)
  | steps + 1, 's' :: 'u' :: 'm' :: '(' :: cs => do
      let (terms, rest) ← readTerms? number steps cs
      return (sum terms, rest)
  | _ + 1, cs => some (const (number (word cs)), afterWord cs)

/-- The terms before the closing parenthesis, and what follows it. -/
def readTerms? (number : List Char → Float) : Nat → List Char → Option (List Expr × List Char)
  | 0, _ => none
  | _ + 1, ')' :: rest => some ([], rest)
  | steps + 1, cs => do
      let (e, rest) ← read? number steps cs
      let (terms, rest) ← readTerms? number steps (skipComma rest)
      return (e :: terms, rest)

end

/-- A text is read as an expression, whatever follows it. As many steps as it has characters suffice. -/
def Reads (number : List Char → Float) (cs : List Char) (e : Expr) : Prop :=
  ∀ steps rest, cs.length ≤ steps → Ends rest → read? number steps (cs ++ rest) = some (e, rest)

def ReadsTerms (number : List Char → Float) (cs : List Char) (terms : List Expr) : Prop :=
  ∀ steps rest, cs.length ≤ steps → readTerms? number steps (cs ++ rest) = some (terms, rest)

variable {a b e : Expr} {as bs : List Char} {terms : List Expr}

theorem exists_step {c : Char} (enough : (c :: cs).length ≤ steps) : ∃ left, steps = left + 1 ∧ cs.length ≤ left :=
  ⟨steps - 1, by simp only [List.length_cons] at enough; omega, Nat.le_sub_one_of_lt enough⟩

theorem reads_var {digits : List Char} (decimal : ∀ c ∈ digits, c.isDigit = true) :
    Reads number ('x' :: digits) (var ⟨Nat.ofDigitChars 10 digits 0⟩) := by
  intro steps rest enough ends
  obtain ⟨left, rfl, -⟩ := exists_step enough
  obtain ⟨word, afterWord⟩ := word_append (fun c member => closes_eq_false_of_isDigit (decimal c member)) ends
  rw [List.cons_append, read?, word, afterWord]

/-- A constant without a sign begins like no other expression. -/
theorem reads_unsigned (unsigned : Binary64.Unsigned cs) : Reads number cs (const (number cs)) := by
  intro steps rest enough ends
  obtain ⟨word, afterWord⟩ := word_append (fun c member => closes_eq_false unsigned member) ends
  obtain ⟨c, cs, rfl, first⟩ := unsigned.first
  obtain ⟨left, rfl, -⟩ := exists_step enough
  have other : c ≠ '-' ∧ c ≠ 'x' ∧ c ≠ '(' ∧ c ≠ 's' := by
    refine ⟨?_, ?_, ?_, ?_⟩ <;> rintro rfl <;> exact absurd first (by decide)
  rw [List.cons_append] at word afterWord ⊢
  rw [read?, word, afterWord]
  · exact fun _ same => other.1 (List.cons.inj same).1
  · exact fun _ same => other.2.1 (List.cons.inj same).1
  · exact fun _ same => other.2.2.1 (List.cons.inj same).1
  · exact fun _ same => other.2.2.2 (List.cons.inj same).1
  · exact fun _ same => other.2.2.2 (List.cons.inj same).1
  · exact fun _ same => other.2.2.2 (List.cons.inj same).1

theorem Reads.negated (operand : Reads number as a) : Reads number ('-' :: as) a.negated := by
  intro steps rest enough ends
  obtain ⟨left, rfl, room⟩ := exists_step enough
  rw [List.cons_append, read?, operand left rest room ends]
  rfl

theorem Reads.call {node : Expr → Expr} (name : List Char)
    (called : ∀ steps cs, read? number (steps + 1) (name ++ cs) = (do
      let (a, rest) ← read? number steps cs
      return (node a, rest.drop 1))) (operand : Reads number as a) :
    Reads number (name ++ (as ++ [')'])) (node a) := by
  intro steps rest enough ends
  simp only [List.length_append, List.length_singleton] at enough
  obtain ⟨left, rfl⟩ := Nat.exists_eq_add_of_le' (show 1 ≤ steps by omega)
  rw [List.append_assoc, List.append_assoc, called,
    operand left ([')'] ++ rest) (by omega) (ends_cons (by decide))]
  rfl

theorem Reads.binary {node : Expr → Expr → Expr} (operator : Char)
    (between : ∀ rest, operation? (' ' :: operator :: ' ' :: rest) = some (node, rest)) (first : Reads number as a)
    (second : Reads number bs b) :
    Reads number ('(' :: (as ++ ' ' :: operator :: ' ' :: (bs ++ [')']))) (node a b) := by
  intro steps rest enough ends
  obtain ⟨left, rfl, room⟩ := exists_step enough
  simp only [List.length_cons, List.length_append] at room
  simp only [List.cons_append, List.append_assoc, List.nil_append, read?]
  rw [first left _ (by omega) (ends_cons (by decide))]
  simp only [Option.bind_eq_bind, Option.bind_some, between]
  rw [second left (')' :: rest) (by omega) (ends_cons (by decide))]
  rfl

theorem ReadsTerms.sum (all : ReadsTerms number cs terms) :
    Reads number ('s' :: 'u' :: 'm' :: '(' :: cs) (sum terms) := by
  intro steps rest enough _
  obtain ⟨left, rfl, room⟩ := exists_step enough
  simp only [List.length_cons] at room
  simp only [List.cons_append, read?]
  rw [all left rest (by omega)]
  rfl

theorem readsTerms_nil : ReadsTerms number [')'] [] := by
  intro steps rest enough
  obtain ⟨left, rfl, -⟩ := exists_step enough
  rfl

/-- A text begins like an expression, and not like the end of one. -/
def Begins (cs : List Char) : Prop :=
  ∃ c rest, cs = c :: rest ∧ c ≠ ')'

theorem readTerms?_of_begins (begins : Begins cs) : readTerms? number (steps + 1) cs = (do
    let (e, rest) ← read? number steps cs
    let (terms, rest) ← readTerms? number steps (skipComma rest)
    return (e :: terms, rest)) := by
  obtain ⟨c, rest, rfl, apart⟩ := begins
  rw [readTerms?]
  exact fun _ same => apart (List.cons.inj same).1

theorem Begins.append (begins : Begins cs) (rest : List Char) : Begins (cs ++ rest) := by
  obtain ⟨c, others, rfl, apart⟩ := begins
  exact ⟨c, others ++ rest, rfl, apart⟩

theorem ReadsTerms.singleton (begins : Begins as) (only : Reads number as a) :
    ReadsTerms number (as ++ [')']) [a] := by
  intro steps rest enough
  have nonempty : 0 < as.length := by
    obtain ⟨c, cs, rfl, -⟩ := begins
    exact Nat.succ_pos _
  rw [List.length_append, List.length_singleton] at enough
  obtain ⟨left, rfl⟩ := Nat.exists_eq_add_of_le' (show 1 ≤ steps by omega)
  rw [List.append_assoc, readTerms?_of_begins (begins.append _),
    only left ([')'] ++ rest) (by omega) (ends_cons (by decide))]
  have last : skipComma ([')'] ++ rest) = [')'] ++ rest := rfl
  simp only [Option.bind_eq_bind, Option.bind_some, last]
  rw [readsTerms_nil left rest (show 1 ≤ left by omega)]
  rfl

theorem ReadsTerms.cons (begins : Begins as) (first : Reads number as a) (others : ReadsTerms number bs terms) :
    ReadsTerms number (as ++ ',' :: ' ' :: bs) (a :: terms) := by
  intro steps rest enough
  simp only [List.length_append, List.length_cons] at enough
  obtain ⟨left, rfl⟩ := Nat.exists_eq_add_of_le' (show 1 ≤ steps by omega)
  rw [List.append_assoc, readTerms?_of_begins (begins.append _),
    first left (',' :: ' ' :: bs ++ rest) (by omega) (ends_cons (by decide))]
  have more : skipComma (',' :: ' ' :: bs ++ rest) = bs ++ rest := rfl
  simp only [Option.bind_eq_bind, Option.bind_some, more]
  rw [others left rest (by omega)]
  rfl

/-! ## What is written is read -/

def termChars : List Expr → List Char
  | [] => [')']
  | [e] => e.text.toList ++ [')']
  | e :: rest => e.text.toList ++ ',' :: ' ' :: termChars rest

theorem toList_text_sum (terms : List Expr) :
    (sum terms).text.toList = 's' :: 'u' :: 'm' :: '(' :: termChars terms := by
  have joined (es : List Expr) : (", ".intercalate (textAll es)).toList ++ [')'] = termChars es := by
    fun_induction termChars es with
    | case1 => rfl
    | case2 e => simp [textAll]
    | case3 e rest more ih =>
        obtain ⟨e', rest, rfl⟩ := List.exists_cons_of_ne_nil more
        rw [← ih]
        simp [textAll]
  rw [text, ← joined]
  simp

theorem begins_text (e : Expr) : Begins e.text.toList := by
  cases e with
  | const c =>
      rcases Binary64.text_cases c with unsigned | ⟨-, signed⟩
      · obtain ⟨c, cs, same, first⟩ := unsigned.first
        refine ⟨c, cs, same, ?_⟩
        rintro rfl
        exact absurd first (by decide)
      · exact ⟨'-', _, signed, by decide⟩
  | sum terms => exact ⟨_, _, toList_text_sum terms, by decide⟩
  | _ => simp [text, Begins]

theorem reads_const (inverse : ∀ c, number (Binary64.text c).toList = c) (c : Float) :
    Reads number (Binary64.text c).toList (const c) := by
  rcases Binary64.text_cases c with unsigned | ⟨unsigned, signed⟩
  · have reads : Reads number _ _ := reads_unsigned unsigned
    rwa [inverse] at reads
  · rw [signed]
    have reads : Reads number _ _ := (reads_unsigned unsigned).negated
    rwa [inverse, negated, Binary64.float_neg_neg] at reads

mutual

/-- The text of an expression is read as the expression with its signs folded, by induction on the tree. -/
theorem reads_text (inverse : ∀ c, number (Binary64.text c).toList = c) : ∀ e : Expr,
    Reads number e.text.toList e.foldSigns
  | var v => by
      have chars : (var v).text.toList = 'x' :: Nat.toDigits 10 v.index := by
        simp [text, Nat.toString_eq_repr, Nat.repr_eq_ofList_toDigits]
      have reads : Reads number _ _ := reads_var fun c (member : c ∈ Nat.toDigits 10 v.index) =>
        Decimal.isDigit_toDigits member
      rwa [Nat.ofDigitChars_ten_toDigits, ← chars] at reads
  | const c => reads_const inverse c
  | neg a => by
      have chars : (neg a).text.toList = '-' :: a.text.toList := Binary64.minus_append_toList _
      exact chars ▸ (reads_text inverse a).negated
  | sqr a => by
      have reads := (reads_text inverse a).call ['s', 'q', 'r', '('] fun _ _ => rfl
      simpa [text, foldSigns] using reads
  | sqrt a => by
      have reads := (reads_text inverse a).call ['s', 'q', 'r', 't', '('] fun _ _ => rfl
      simpa [text, foldSigns] using reads
  | add a b => by
      have reads := (reads_text inverse a).binary '+' (fun _ => rfl) (reads_text inverse b)
      simpa [text, foldSigns] using reads
  | sub a b => by
      have reads := (reads_text inverse a).binary '-' (fun _ => rfl) (reads_text inverse b)
      simpa [text, foldSigns] using reads
  | mul a b => by
      have reads := (reads_text inverse a).binary '*' (fun _ => rfl) (reads_text inverse b)
      simpa [text, foldSigns] using reads
  | div a b => by
      have reads := (reads_text inverse a).binary '/' (fun _ => rfl) (reads_text inverse b)
      simpa [text, foldSigns] using reads
  | sum terms => by
      rw [toList_text_sum]
      exact (readsTerms_termChars inverse terms).sum

theorem readsTerms_termChars (inverse : ∀ c, number (Binary64.text c).toList = c) :
    ∀ terms : List Expr, ReadsTerms number (termChars terms) (foldSignsAll terms)
  | [] => readsTerms_nil
  | [e] => .singleton (begins_text e) (reads_text inverse e)
  | e :: e' :: rest => .cons (begins_text e) (reads_text inverse e) (readsTerms_termChars inverse (e' :: rest))

end

/-- Texts that go on alike after two expressions are those of the same expression, up to signs in front of constants. -/
theorem foldSigns_eq_of_append_eq {e e' : Expr} {rest rest' : List Char} (ends : Ends rest) (ends' : Ends rest')
    (same : e.text.toList ++ rest = e'.text.toList ++ rest') : e.foldSigns = e'.foldSigns ∧ rest = rest' := by
  have apart : Function.Injective fun c => (Binary64.text c).toList := fun c c' same =>
    Binary64.text_injective (String.toList_inj.1 same)
  obtain ⟨number, inverse⟩ := apart.hasLeftInverse
  let steps := e.text.toList.length + e'.text.toList.length
  have first := reads_text inverse e steps rest (Nat.le_add_right _ _) ends
  have second := reads_text inverse e' steps rest' (Nat.le_add_left _ _) ends'
  rw [same, second] at first
  obtain ⟨trees, others⟩ := Prod.mk.inj (Option.some.inj first)
  exact ⟨trees.symm, others.symm⟩

/-! ## What a text tells -/

/-- The interval of the root of an arena. -/
def rootValue (bounds : Var → Interval) (e : Expr) : Interval :=
  valueAt (evaluateArena bounds e.arena) (e.arena.size - 1)

theorem rootValue_eq (bounds : Var → Interval) (e : Expr) : e.rootValue bounds = e.evaluate bounds := by
  have found := getElem?_evaluateArena bounds (getElem?_root e)
  rw [rootValue, valueAt, Array.getD_eq_getD_getElem?, found, Option.getD_some]

/-- Two expressions are the same tree, up to whether signs negate constants or belong to them, with the same variables
    and the same interval in every state. -/
structure Agree (e e' : Expr) : Prop where
  trees : e.foldSigns = e'.foldSigns
  vars : e.vars = e'.vars
  value : ∀ bounds, e.rootValue bounds = e'.rootValue bounds

theorem agree_of_foldSigns_eq {e e' : Expr} (trees : e.foldSigns = e'.foldSigns) : Agree e e' where
  trees
  vars := by rw [vars, vars, ← occurrences_foldSigns e, trees, occurrences_foldSigns e']
  value bounds := by rw [rootValue_eq, rootValue_eq, ← evaluate_foldSigns e, trees, evaluate_foldSigns e']

/-- The text of an expression tells it up to the signs of constants, so it tells its variables and its interval in
    every state. The label of a formula, where the target comes behind the expression, tells as much and the text of the
    target. -/
theorem agree_of_text_eq (e e' : Expr) :
    (e.text = e'.text → Agree e e') ∧
      ∀ i i', (Formula.ofExpr e i).label = (Formula.ofExpr e' i').label → Agree e e' ∧ i.text = i'.text := by
  constructor
  · intro same
    have chars : e.text.toList ++ [] = e'.text.toList ++ [] := by rw [same]
    exact agree_of_foldSigns_eq (foldSigns_eq_of_append_eq ends_nil ends_nil chars).1
  · intro i i' same
    have chars := congrArg String.toList same
    simp only [Formula.label, Formula.ofExpr, String.toList_append, List.append_assoc] at chars
    have behind (i : Interval) : Ends (" ∈ ".toList ++ i.text.toList) := ends_cons (by decide)
    obtain ⟨trees, targets⟩ := foldSigns_eq_of_append_eq (behind i) (behind i') chars
    exact ⟨agree_of_foldSigns_eq trees, String.toList_inj.1 (List.append_cancel_left targets)⟩

/-- Whether a sign negates a constant or belongs to it is not told, and makes no difference. -/
theorem agree_of_text_eq_signed_constant :
    let e := sum [neg (const 2.5), var ⟨0⟩]
    let e' := sum [const (-2.5), var ⟨0⟩]
    let positive := Interval.nonNegative
    (e.text = e'.text ∧ Agree e e') ∧
      (Formula.ofExpr e positive).label = (Formula.ofExpr e' positive).label ∧ Agree e e' := by
  intro e e' positive
  have texts : e.text = e'.text := by decide +kernel
  have labels : (Formula.ofExpr e positive).label = (Formula.ofExpr e' positive).label :=
    congrArg (· ++ " ∈ " ++ positive.text) texts
  exact ⟨⟨texts, (agree_of_text_eq e e').1 texts⟩, labels, ((agree_of_text_eq e e').2 positive positive labels).1⟩

end Expr

end StatBounds
