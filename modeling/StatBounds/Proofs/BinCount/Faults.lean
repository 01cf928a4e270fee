import StatBounds.Proofs.BinCount.Exactness

/-! # Faults of the bin count filter

Every item and every bin that the filter asks about exists, so all that can go wrong without being an
error is a sum that does not fit in a word.
-/

namespace StatBounds

/-- The only fault is that a sum is too large. -/
def OnlyOverflows {α : Type} (result : Except Fault α) : Prop :=
  ∀ fault, result = .error fault → fault = .overflow

namespace OnlyOverflows

variable {α β : Type}

theorem ok (a : α) : OnlyOverflows (.ok a) := by
  intro fault same
  cases same

theorem overflow : OnlyOverflows (.error .overflow : Except Fault α) := by
  intro fault same
  exact (Except.error.inj same).symm

theorem bind {first : Except Fault α} {next : α → Except Fault β} (head : OnlyOverflows first)
    (tail : ∀ a, OnlyOverflows (next a)) : OnlyOverflows (first >>= next) := by
  cases first with
  | error fault =>
      intro other same
      exact head other (congrArg Except.error (Except.error.inj same))
  | ok a => exact tail a

theorem filterM {p : α → Except Fault Bool} {as : List α} (each : ∀ a ∈ as, OnlyOverflows (p a)) :
    OnlyOverflows (as.filterM p) := by
  have collected (kept : List α) : OnlyOverflows (as.filterAuxM p kept) := by
    induction as generalizing kept with
    | nil => exact ok _
    | cons a as ih =>
        exact (each a (by simp)).bind fun keep => ih (fun a member => each a (by simp [member])) _
  exact (collected []).bind fun _ => ok _

end OnlyOverflows

namespace Transportation

variable {t : Transportation}

theorem onlyOverflows_countSum (counts : List Nat) : OnlyOverflows (countSum counts) := by
  unfold countSum
  split_ifs
  · exact .ok _
  · exact .overflow

theorem onlyOverflows_isFeasible : OnlyOverflows t.isFeasible := by
  have solve : OnlyOverflows t.solve := by
    unfold solve
    split_ifs
    · exact .ok _
    · refine (onlyOverflows_countSum _).bind fun lower => (onlyOverflows_countSum _).bind fun upper => ?_
      split_ifs
      · exact .ok _
      · exact .ok _
  exact solve.bind fun _ => .ok _

theorem onlyOverflows_supports {item bin : Nat} (inside : item < t.items) (binInside : bin < t.bins) :
    OnlyOverflows (t.supports item bin) := by
  unfold supports
  rw [List.getElem?_eq_getElem binInside, List.getElem?_eq_getElem inside]
  dsimp only
  split_ifs
  · exact .ok _
  · exact .ok _
  · exact onlyOverflows_isFeasible

theorem onlyOverflows_greatest {holds : Nat → Except Fault Bool} (each : ∀ c, OnlyOverflows (holds c))
    (a b : Nat) : OnlyOverflows (greatest holds a b) := by
  fun_induction greatest holds a b with
  | case1 a b less small middle ihUpper ihLower =>
      refine (each middle).bind fun answer => ?_
      cases answer with
      | true => exact ihUpper
      | false => exact ihLower
  | case2 => exact .overflow
  | case3 => exact .ok _

theorem onlyOverflows_least {holds : Nat → Except Fault Bool} (each : ∀ c, OnlyOverflows (holds c))
    (a b : Nat) : OnlyOverflows (least holds a b) := by
  fun_induction least holds a b with
  | case1 a b less middle ihLower ihUpper =>
      refine (each middle).bind fun answer => ?_
      cases answer with
      | true => exact ihLower
      | false => exact ihUpper
  | case2 => exact .ok _

theorem onlyOverflows_countRange {bin : Nat} (inside : bin < t.bins) : OnlyOverflows (t.countRange bin) := by
  unfold countRange
  refine onlyOverflows_isFeasible.bind fun feasible => ?_
  rw [List.getElem?_eq_getElem inside]
  split_ifs
  · exact .ok _
  · exact (onlyOverflows_greatest (fun _ => onlyOverflows_isFeasible) _ _).bind fun _ =>
      (onlyOverflows_least (fun _ => onlyOverflows_isFeasible) _ _).bind fun _ => .ok _

end Transportation

/-- The failure does not tell of a position that does not exist. -/
def Failure.InRange (failure : Failure) : Prop :=
  ∀ index size, failure ≠ .fault (.outOfRange index size)

/-- The failure is an error that is reported, and no broken rule. -/
def Failure.Reported : Failure → Prop
  | .error _ => True
  | .fault _ => False

/-- The failure says that there is no solution, or that a sum is too large. -/
def Failure.Expected : Failure → Prop
  | .error e => e.kind = .infeasible
  | .fault f => f = .overflow

theorem Failure.Expected.inRange {failure : Failure} (expected : failure.Expected) : failure.InRange := by
  rintro index size rfl
  cases expected

/-- There is no other failure than the expected ones. -/
def FailsAsExpected {α : Type} (result : Except Failure α) : Prop :=
  ∀ failure, result = .error failure → failure.Expected

namespace FailsAsExpected

variable {α β : Type}

theorem ok (a : α) : FailsAsExpected (.ok a) := by
  intro failure same
  cases same

theorem error {e : Error} (infeasible : e.kind = .infeasible) :
    FailsAsExpected (.error (.error e) : Except Failure α) := by
  intro failure same
  obtain rfl := Except.error.inj same
  exact infeasible

theorem orFault {result : Except Fault α} (overflows : OnlyOverflows result) :
    FailsAsExpected (BinCountFilter.orFault result) := by
  cases result with
  | ok a => exact ok a
  | error fault =>
      intro failure same
      obtain rfl := Except.error.inj same
      exact overflows fault rfl

theorem bind {first : Except Failure α} {next : α → Except Failure β} (head : FailsAsExpected first)
    (tail : ∀ a, first = .ok a → FailsAsExpected (next a)) : FailsAsExpected (first >>= next) := by
  cases first with
  | error failure =>
      intro other same
      exact head other (congrArg Except.error (Except.error.inj same))
  | ok a => exact tail a rfl

theorem mapM {f : α → Except Failure β} {as : List α} (each : ∀ a ∈ as, FailsAsExpected (f a)) :
    FailsAsExpected (as.mapM f) := by
  induction as with
  | nil => exact ok _
  | cons a as ih =>
      rw [List.mapM_cons]
      exact (each a (by simp)).bind fun b _ =>
        (ih fun a member => each a (by simp [member])).bind fun bs _ => ok _

end FailsAsExpected

namespace BinCountFilter

variable {f : BinCountFilter} {items : List Domain} {counts : List (Nat × Nat)}

theorem failsAsExpected_checkCapacity (count : Nat) (bounds : List (Nat × Nat)) :
    FailsAsExpected (checkCapacity count bounds) := by
  unfold checkCapacity
  refine (FailsAsExpected.orFault (Transportation.onlyOverflows_countSum _)).bind fun lower _ =>
    (FailsAsExpected.orFault (Transportation.onlyOverflows_countSum _)).bind fun upper _ => ?_
  split_ifs
  · exact .error rfl
  · exact .error rfl
  · exact .error rfl
  · exact .ok _

theorem failsAsExpected_allowed : FailsAsExpected (f.allowed items) := by
  refine FailsAsExpected.mapM fun ⟨item, i⟩ _ => ?_
  dsimp only
  split
  · exact .error rfl
  · exact .ok _

/-- With a range for each bin the filter fails only if there is no assignment or a sum is too large. -/
theorem failsAsExpected_filter (lengths : counts.length = f.bins.length) :
    FailsAsExpected (f.filter items counts) := by
  by_cases someBin : ∀ item ∈ items, f.binsOf item ≠ []
  · rw [filter_eq lengths someBin]
    refine (failsAsExpected_checkCapacity _ _).bind fun _ _ =>
      (FailsAsExpected.orFault Transportation.onlyOverflows_isFeasible).bind fun feasible _ => ?_
    split_ifs
    · exact .error rfl
    have left : FailsAsExpected (items.zipIdx.mapM (f.leftOf (f.problem items counts lengths))) := by
      refine FailsAsExpected.mapM fun numbered member => (FailsAsExpected.orFault ?_).bind fun _ _ => .ok _
      have inside := (List.getElem?_eq_some_iff.1 (List.mem_zipIdx_iff_getElem?.1 member)).1
      refine (OnlyOverflows.filterM fun numbered member => ?_).bind fun _ => .ok _
      refine Transportation.onlyOverflows_supports (items_problem.symm ▸ inside) ?_
      rw [bins_problem]
      exact (List.getElem?_eq_some_iff.1 (List.mem_zipIdx_iff_getElem?.1 member)).1
    have ranges : FailsAsExpected
        ((List.range f.bins.length).mapM (rangeOf (f.problem items counts lengths))) := by
      refine FailsAsExpected.mapM fun b member => ?_
      have inside : b < (f.problem items counts lengths).bins :=
        bins_problem.symm ▸ List.mem_range.1 member
      refine (FailsAsExpected.orFault (Transportation.onlyOverflows_countRange inside)).bind fun range _ => ?_
      cases range with
      | some range => exact .ok _
      | none => exact .error rfl
    exact left.bind fun _ _ => ranges.bind fun _ _ => .ok _
  · push Not at someBin
    obtain ⟨item, member, noBin⟩ := someBin
    obtain ⟨failure, fails⟩ := allowed_error member noBin
    rw [filter, if_neg (not_not.2 lengths)]
    refine failsAsExpected_allowed.bind fun allowed same => ?_
    rw [fails] at same
    cases same

/-- The filter never addresses an item or a bin that does not exist. -/
theorem failsInRange_filter {failure : Failure} (fails : f.filter items counts = .error failure) :
    failure.InRange := by
  by_cases lengths : counts.length = f.bins.length
  · exact (failsAsExpected_filter lengths failure fails).inRange
  · rw [filter, if_pos lengths] at fails
    obtain rfl := Except.error.inj fails
    exact fun _ _ => by simp

end BinCountFilter

end StatBounds
