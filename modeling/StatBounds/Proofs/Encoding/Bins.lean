import StatBounds.Encoding.Series
import StatBounds.Proofs.Propagation.Primitives

/-! # Membership in bins

Sorted bins are disjoint, so a number lies in one of them at most, if the lower bound of each bin comes first. The tests
for the membership in a bin say the same for both kinds of series, and the test for coverage is right about every value
of a domain, whatever the bins are.
-/

namespace StatBounds

open Binary64 (IsNumber value)

namespace Bin

variable {bins : List Bin} {task : String}

/-- An extended real lies in exactly one of the bins. -/
def InOne (bins : List Bin) (x : EReal) : Prop :=
  ∃! i : Nat, ∃ bin : Bin, bins[i]? = some bin ∧ bin.Has x

/-! ## Disjoint bins -/

/-- Sorted bins end before later ones begin. -/
theorem pairwise_of_checkOrder (proper : ∀ bin ∈ bins, bin.Proper) (checked : checkOrder task bins = .ok ()) :
    bins.Pairwise fun a b => value a.ub ≤ value b.lb := by
  induction bins with
  | nil => exact .nil
  | cons a rest ih =>
      cases rest with
      | nil => exact List.pairwise_singleton _ _
      | cons b rest =>
          rw [checkOrder] at checked
          split_ifs at checked with overlap
          have later := ih (fun bin member => proper bin (List.mem_cons_of_mem a member)) checked
          obtain ⟨-, numberUb, -⟩ := Binary64.lt_iff.1 (proper a (by simp))
          obtain ⟨numberLb, -, order⟩ := Binary64.lt_iff.1 (proper b (by simp))
          have ordered : value a.ub ≤ value b.lb := (Binary64.not_lt_iff numberLb numberUb).1 overlap
          refine List.pairwise_cons.2 ⟨fun c member => ?_, later⟩
          cases member with
          | head => exact ordered
          | tail _ member => exact (ordered.trans order.le).trans ((List.pairwise_cons.1 later).1 c member)

theorem pairwise_of_check (proper : ∀ bin ∈ bins, bin.Proper) (checked : check task bins = .ok ()) :
    bins.Pairwise fun a b => value a.ub ≤ value b.lb := by
  unfold check at checked
  split_ifs at checked
  exact pairwise_of_checkOrder proper checked

theorem index_unique (sorted : bins.Pairwise fun a b => value a.ub ≤ value b.lb) {x : EReal} {i j : Nat}
    {first second : Bin} (foundFirst : bins[i]? = some first) (foundSecond : bins[j]? = some second)
    (inFirst : first.Has x) (inSecond : second.Has x) : i = j := by
  obtain ⟨insideI, rfl⟩ := List.getElem?_eq_some_iff.1 foundFirst
  obtain ⟨insideJ, rfl⟩ := List.getElem?_eq_some_iff.1 foundSecond
  rw [List.pairwise_iff_getElem] at sorted
  rcases lt_trichotomy i j with less | same | more
  · exact absurd (inFirst.below.trans_le (sorted i j insideI insideJ less)) (not_lt.2 inSecond.above)
  · exact same
  · exact absurd (inSecond.below.trans_le (sorted j i insideJ insideI more)) (not_lt.2 inFirst.above)

/-- A number that lies in a sorted bin lies in no other one. -/
theorem inOne_iff (sorted : bins.Pairwise fun a b => value a.ub ≤ value b.lb) {x : EReal} :
    InOne bins x ↔ ∃ bin ∈ bins, bin.Has x := by
  constructor
  · rintro ⟨i, ⟨bin, found, has⟩, -⟩
    exact ⟨bin, List.mem_of_getElem? found, has⟩
  · rintro ⟨bin, member, has⟩
    obtain ⟨i, found⟩ := List.mem_iff_getElem?.1 member
    refine ⟨i, ⟨bin, found, has⟩, ?_⟩
    rintro j ⟨other, foundOther, hasOther⟩
    exact index_unique sorted foundOther found hasOther has

/-- Bins of which the first and the last one overlap. They are accepted nevertheless, since the bin between them begins
    after the first one and ends before the last one. -/
def crossing : List Bin :=
  [⟨0.0, 10.0⟩, ⟨20.0, 2.0⟩, ⟨5.0, 8.0⟩]

theorem check_crossing (task : String) : check task crossing = .ok () := by
  have first : ¬ (10.0 : Float) > 20.0 := by decide +kernel
  have second : ¬ (2.0 : Float) > 5.0 := by decide +kernel
  rw [check, if_neg (by decide), crossing, checkOrder, if_neg first, checkOrder, if_neg second]
  rfl

theorem has_crossing : (⟨0.0, 10.0⟩ : Bin).Has (Choice.int 6).reading ∧ (⟨5.0, 8.0⟩ : Bin).Has (Choice.int 6).reading :=
  ⟨contains_ofInt_iff.1 (by decide +kernel), contains_ofInt_iff.1 (by decide +kernel)⟩

/-! ## Coverage -/

/-- Bins without gaps hold everything from the first lower bound to the last upper one. -/
theorem exists_has_of_gapFree {first last : Bin} {x : EReal} (contiguous : gapFree bins = true)
    (head : bins.head? = some first) (end_ : bins.getLast? = some last) (numberLb : IsNumber first.lb)
    (numberUb : IsNumber last.ub) (above : value first.lb ≤ x) (below : x < value last.ub) :
    ∃ bin ∈ bins, bin.Has x := by
  induction bins generalizing first with
  | nil => cases head
  | cons a rest ih =>
      obtain rfl := Option.some.inj head
      cases rest with
      | nil =>
          obtain rfl := Option.some.inj end_
          exact ⟨a, by simp, numberLb, numberUb, above, below⟩
      | cons b rest =>
          rw [gapFree, Bool.and_eq_true, Binary64.beq_iff] at contiguous
          by_cases inside : x < value a.ub
          · exact ⟨a, by simp, numberLb, contiguous.1.1, above, inside⟩
          · have next : value b.lb ≤ x := contiguous.1.2.2 ▸ not_lt.1 inside
            rw [List.getLast?_cons_cons] at end_
            obtain ⟨bin, member, has⟩ := ih contiguous.2 rfl end_ contiguous.1.2.1 next
            exact ⟨bin, by simp [member], has⟩

theorem exists_has_of_covers {d : Domain} {c : Choice} (covered : covers bins d = true) (admits : d.Admits c) :
    ∃ bin ∈ bins, bin.Has c.reading := by
  cases d with
  | finite s =>
      cases c with
      | real r => exact admits.elim
      | int n =>
          obtain ⟨bin, member, contains⟩ := List.any_eq_true.1 (List.all_eq_true.1 covered n.toInt admits)
          exact ⟨bin, member, contains_ofInt_iff.1 contains⟩
  | real r =>
      have encloses := admits.encloses_hull
      cases first : bins.head? with
      | none => simp [covers, first] at covered
      | some a =>
          cases last : bins.getLast? with
          | none => simp [covers, last] at covered
          | some z =>
              simp only [covers, first, last, Bool.and_eq_true, decide_eq_true_eq, Binary64.le_iff,
                Binary64.lt_iff] at covered
              obtain ⟨⟨⟨contiguous, -⟩, numberLb, -, above⟩, -, numberUb, below⟩ := covered
              exact exists_has_of_gapFree contiguous first last numberLb numberUb (above.trans encloses.lower)
                (encloses.upper.trans_lt below)

end Bin

/-! ## Tests -/

theorem SeriesKind.var_of_mem_membership {kind : SeriesKind} {v : Var} {bin : Bin} {a : Atom}
    (member : a ∈ kind.membership v bin) : a.var = v := by
  cases kind with
  | discrete =>
      simp only [membership, List.mem_cons, List.not_mem_nil, or_false] at member
      rcases member with rfl | rfl <;> rfl
  | continuous =>
      obtain rfl := List.mem_singleton.1 member
      rfl

/-- For both kinds of series the tests say that a variable lies in the bin. -/
theorem SeriesKind.membership_iff {kind : SeriesKind} {v : Var} {bin : Bin} {σ : Assignment} :
    (∀ a ∈ kind.membership v bin, a.Holds (σ a.var).reading) ↔ bin.Has (σ v).reading := by
  have same : ((IsNumber bin.lb ∧ value bin.lb ≤ (σ v).reading) ∧ IsNumber bin.ub ∧ (σ v).reading < value bin.ub) ↔
      bin.Has (σ v).reading :=
    ⟨fun ⟨⟨numberLb, above⟩, numberUb, below⟩ => ⟨numberLb, numberUb, above, below⟩,
      fun has => ⟨⟨has.numberLb, has.above⟩, has.numberUb, has.below⟩⟩
  cases kind with
  | discrete =>
      simpa only [membership, List.forall_mem_cons, Atom.Holds, Atom.var, List.not_mem_nil, false_imp_iff,
        implies_true, and_true] using same
  | continuous =>
      simpa only [membership, List.forall_mem_cons, Atom.Holds, Atom.var, List.not_mem_nil, false_imp_iff,
        implies_true, and_true] using same

end StatBounds
