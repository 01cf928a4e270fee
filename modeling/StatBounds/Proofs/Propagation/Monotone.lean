import StatBounds.Proofs.Propagation.Order
import StatBounds.Proofs.Propagation.Primitives

/-! # Constraints are monotone

A constraint that succeeds on smaller domains does not claim that the larger ones have no solution, and what it
leaves of the smaller ones lies inside what it leaves of the larger ones. Each operation is compared with itself
on both states, or with one that does nothing where a conjunction knows more of the smaller domains.
-/

namespace StatBounds

open Binary64 (IsNumber value)

variable {α β γ δ : Type} {small big : Variables}

/-- If an operation succeeds on smaller domains, then another one on larger domains leads to larger domains and a
    related result, or fails for another reason than that there is no solution. -/
def Follows (small big : Variables) (first : NarrowM α) (second : NarrowM β) (related : α → β → Prop) : Prop :=
  Ensures first small
    (fun a left => Ensures second big (fun b after => left.Inside after ∧ related a b)
      fun failure _ => ¬ failure.Infeasible)
    fun _ _ => True

/-! ## Composition -/

namespace Follows

theorem pure {a : α} {b : β} {related : α → β → Prop} (inside : small.Inside big) (holds : related a b) :
    Follows small big (pure a) (pure b) related :=
  ⟨inside, holds⟩

theorem bind {first : NarrowM α} {second : NarrowM β} {rest : α → NarrowM γ} {rest' : β → NarrowM δ}
    {related : α → β → Prop} {last : γ → δ → Prop} (head : Follows small big first second related)
    (tail : ∀ a b left after, left.Inside after → related a b → Follows left after (rest a) (rest' b) last) :
    Follows small big (first >>= rest) (second >>= rest') last := by
  refine ensures_bind.2 (head.mono (fun a left outcome => ?_) fun _ _ _ => trivial)
  unfold Ensures at outcome
  cases ran : second big with
  | error failure after =>
      rw [ran] at outcome
      have fails : (second >>= rest') big = .error failure after := by
        simp only [Bind.bind, EStateM.bind, ran]
      unfold Ensures
      rw [fails]
      cases rest a left with
      | ok _ _ => exact outcome
      | error _ _ => trivial
  | ok b after =>
      rw [ran] at outcome
      refine (tail a b left after outcome.1 outcome.2).mono (fun c last both => ?_) fun _ _ _ => trivial
      have runs : (second >>= rest') big = rest' b after := by
        simp only [Bind.bind, EStateM.bind, ran]
      rw [Ensures, runs]
      exact both

theorem get {next : Variables → NarrowM α} {next' : Variables → NarrowM β} {related : α → β → Prop}
    (follows : Follows small big (next small) (next' big) related) :
    Follows small big (get >>= next) (get >>= next') related :=
  follows

theorem discard {first : NarrowM α} {second : NarrowM β} {related : α → β → Prop}
    (follows : Follows small big first second related) :
    Follows small big (discard first) (discard second) fun _ _ => True := by
  refine ensures_discard.2 (Ensures.mono follows (fun a left outcome => ?_) fun _ _ _ => trivial)
  exact ensures_discard.2 (outcome.mono (fun _ _ both => ⟨both.1, trivial⟩) fun _ _ => id)

theorem forM {first : α → NarrowM PUnit} {second : β → NarrowM PUnit} {as : List α} {bs : List β}
    {paired : α → β → Prop} (all : List.Forall₂ paired as bs)
    (each : ∀ a b small big, small.Inside big → paired a b →
      Follows small big (first a) (second b) fun _ _ => True)
    (inside : small.Inside big) : Follows small big (as.forM first) (bs.forM second) fun _ _ => True := by
  induction all generalizing small big with
  | nil => exact .pure inside trivial
  | cons head _ ih => exact (each _ _ _ _ inside head).bind fun _ _ _ _ within _ => ih within

theorem mapM {first : α → NarrowM γ} {second : β → NarrowM δ} {as : List α} {bs : List β}
    {paired : α → β → Prop} {related : γ → δ → Prop} (all : List.Forall₂ paired as bs)
    (each : ∀ a b small big, small.Inside big → paired a b → Follows small big (first a) (second b) related)
    (inside : small.Inside big) :
    Follows small big (as.mapM first) (bs.mapM second) fun cs ds =>
      List.Forall₂ related cs ds ∧ cs.length = as.length := by
  induction all generalizing small big with
  | nil => exact .pure inside ⟨.nil, rfl⟩
  | cons head _ ih =>
      rw [List.mapM_cons, List.mapM_cons]
      exact (each _ _ _ _ inside head).bind fun _ _ _ _ within first =>
        (ih within).bind fun _ _ _ _ within rest => .pure within ⟨.cons first rest.1, by simp [rest.2]⟩

/-- An operation that only shrinks the smaller domains may stand before one that they survive. -/
theorem of_shrinks {first : NarrowM α} {second : NarrowM β} (shrinks : Shrinks first)
    (inside : small.Inside big)
    (spares : ∀ left, left.Inside small → Follows left big (Pure.pure ()) second fun _ _ => True) :
    Follows small big first second fun _ _ => True :=
  (shrinks small inside.self).mono (fun _ left within => spares left within) fun _ _ _ => trivial

theorem congr {first first' : NarrowM α} {second second' : NarrowM β} {related : α → β → Prop}
    (same : first small = first' small) (same' : second big = second' big)
    (follows : Follows small big first' second' related) : Follows small big first second related := by
  unfold Follows Ensures at *
  rwa [same, same']

end Follows

/-! ## Reading and narrowing -/

theorem follows_fetch (v : Var) (inside : small.Inside big) :
    Follows small big (Variables.fetch v) (Variables.fetch v) fun x y =>
      x.domain.Inside y.domain ∧ x.domain.isEmpty = false := by
  cases found : small.get? v with
  | none =>
      rw [Follows, Ensures, fetch_missing found]
      trivial
  | some x =>
      obtain ⟨y, found', -, within⟩ := inside.domain v x found
      rw [Follows, Ensures, fetch_eq found]
      change Ensures _ _ _ _
      rw [Ensures, fetch_eq found']
      exact ⟨inside, within, inside.some v x found⟩

theorem follows_require (vs : List Var) (inside : small.Inside big) :
    Follows small big (Variables.require vs) (Variables.require vs) fun _ _ => True :=
  .forM (List.forall₂_same.2 fun _ _ => rfl)
    (fun _ _ _ _ within same => same ▸ (follows_fetch _ within).discard) inside

section

variable {first : NarrowM α} {second : NarrowM β} {v : Var} {test test' : Domain → Prop} {x : Variable}
  {d : Domain} {left : Variables}

theorem Narrows.ensures_inside (narrows : Narrows second v test) (inside : small.Inside big)
    (found : small.get? v = some x) (part : d.Inside x.domain) (some : d.isEmpty = false) (passes : test d)
    (replaced : small.Replaced v d left) :
    Ensures second big (fun _ after => left.Inside after) fun failure _ => ¬ failure.Infeasible := by
  obtain ⟨y, found', name, within⟩ := inside.domain v x found
  refine (narrows.found big y found' within.proper.2).mono (fun _ after ⟨e, replaced', greatest⟩ => ?_)
    fun failure _ none infeasible => none infeasible d some (part.trans within) passes
  have below : d.Inside e := greatest.greatest d some (part.trans within) passes
  have known {w : Var} {z : Variable} (listed : left.get? w = .some z) :
      z.domain.isEmpty = false ∧ ∃ z', after.get? w = .some z' ∧ z.name = z'.name ∧ z.domain.Inside z'.domain := by
    by_cases here : w = v
    · subst here
      rw [replaced.here, found] at listed
      obtain rfl := Option.some.inj listed
      exact ⟨some, { y with domain := e }, by rw [replaced'.here, found']; rfl, name, below⟩
    · rw [replaced.elsewhere w here] at listed
      obtain ⟨z', found'', name', within'⟩ := inside.domain w z listed
      exact ⟨inside.some w z listed, z', by rw [replaced'.elsewhere w here, found''], name', within'⟩
  exact ⟨by rw [replaced.size, replaced'.size, inside.size], fun w z listed => (known listed).2,
    fun w z listed => (known listed).1⟩

theorem Narrows.follows (narrows : Narrows first v test) (narrows' : Narrows second v test')
    (weaker : ∀ e, test e → test' e) (inside : small.Inside big) :
    Follows small big first second fun _ _ => True := by
  cases found : small.get? v with
  | none => exact (narrows.missing small found).mono (fun _ _ => False.elim) fun _ _ => id
  | some x =>
      obtain ⟨y, -, -, within⟩ := inside.domain v x found
      refine (narrows.found small x found within.proper.1).mono (fun _ left ⟨d, replaced, greatest⟩ => ?_)
        fun _ _ _ => trivial
      exact (narrows'.ensures_inside inside found greatest.inside (greatest.some (inside.some v x found))
        (weaker d greatest.passes) replaced).mono (fun _ _ below => ⟨below, trivial⟩) fun _ _ => id

theorem Narrows.spares (narrows : Narrows second v test) (inside : small.Inside big)
    (found : small.get? v = some x) (passes : test x.domain) :
    Follows small big (pure ()) second fun _ _ => True := by
  obtain ⟨y, -, -, within⟩ := inside.domain v x found
  exact (narrows.ensures_inside inside found (.refl within.proper.1) (inside.some v x found) passes
    (.refl found)).mono (fun _ _ below => ⟨below, trivial⟩) fun _ _ => id

end

/-- Nothing follows a narrowing that no part of the domain passes. -/
theorem follows_of_no_part {first : NarrowM α} {second : NarrowM β} {v : Var} {test : Domain → Prop}
    {x : Variable} {related : α → β → Prop} (narrows : Narrows first v test) (inside : small.Inside big)
    (found : small.get? v = some x)
    (apart : ∀ e, e.isEmpty = false → e.Inside x.domain → ¬ test e) : Follows small big first second related := by
  obtain ⟨y, -, -, within⟩ := inside.domain v x found
  refine (narrows.found small x found within.proper.1).mono (fun _ _ ⟨d, _, part⟩ => ?_) fun _ _ _ => trivial
  exact absurd part.passes (apart d (part.some (inside.some v x found)) part.inside)

theorem follows_narrow (v : Var) {onto onto' : Interval} (within : onto.Within onto')
    (inside : small.Inside big) :
    Follows small big (Variables.narrow v onto) (Variables.narrow v onto') fun _ _ => True :=
  (narrows_narrow v within.inner).follows (narrows_narrow v within.outer) (fun _ below => below.trans within)
    inside

theorem forall₂_zip {related : α → β → Prop} {as : List α} {bs : List β} (vs : List γ)
    (all : List.Forall₂ related as bs) :
    List.Forall₂ (fun (a : γ × α) (b : γ × β) => a.1 = b.1 ∧ related a.2 b.2) (vs.zip as) (vs.zip bs) := by
  induction all generalizing vs with
  | nil => simp
  | cons head _ ih =>
      cases vs with
      | nil => exact .nil
      | cons v vs => exact .cons ⟨rfl, head⟩ (ih vs)

/-! ## Sums -/

theorem Sum.follows (c : Sum) (inside : small.Inside big) :
    Follows small big c.propagate c.propagate fun _ _ => True := by
  refine (follows_require c.scope inside).bind fun _ _ _ _ inside _ => .get ?_
  have parts : List.Forall₂ Interval.Within (c.terms.map _) (c.terms.map _) :=
    List.forall₂_map_left_iff.2 (List.forall₂_map_right_iff.2 (List.forall₂_same.2 fun v _ => inside.bounds v))
  refine (follows_narrow c.total (Interval.within_sum parts) inside).discard.bind
    fun _ _ _ _ inside _ => .get ?_
  refine .forM (forall₂_zip c.terms (Interval.within_sumsOfOthers parts))
    (fun ⟨v, others⟩ ⟨w, others'⟩ _ _ within both => ?_) inside
  obtain ⟨rfl, below⟩ := both
  exact (follows_narrow v ((inside.bounds c.total).sub below) within).discard

/-! ## Tests -/

namespace Atom

variable {a : Atom} {d e : Domain} {i j : Interval}

theorem entailed_mono {r q : RealDomain} (within : r.interval.Within q.interval) (entailed : a.entailed q = true) :
    a.entailed r = true := by
  cases a <;>
    simp only [Atom.entailed, ge_iff_le, Bool.and_eq_true, decide_eq_true_eq, Binary64.le_iff,
      Binary64.lt_iff] at entailed ⊢
  case atLeast => exact ⟨entailed.1, within.inner.lo, entailed.2.2.trans within.lower⟩
  case below => exact ⟨within.inner.hi, entailed.2.1, within.upper.trans_lt entailed.2.2⟩
  case within =>
    exact ⟨⟨entailed.1.1, within.inner.lo, entailed.1.2.2.trans within.lower⟩,
      within.inner.hi, entailed.2.2.1, within.upper.trans_lt entailed.2.2.2⟩

theorem refuted_mono {r q : RealDomain} (within : r.interval.Within q.interval) (refuted : a.refuted q = true) :
    a.refuted r = true := by
  cases a with
  | atLeast v bound =>
      simp only [Atom.refuted, decide_eq_true_eq, Binary64.lt_iff] at refuted ⊢
      exact ⟨within.inner.hi, refuted.2.1, within.upper.trans_lt refuted.2.2⟩
  | below v bound =>
      simp only [Atom.refuted, decide_eq_true_eq, ge_iff_le, Binary64.le_iff] at refuted ⊢
      exact ⟨refuted.1, within.inner.lo, refuted.2.2.trans within.lower⟩
  | within v lb ub =>
      rw [Atom.refuted, Bool.not_eq_true', ← Bool.not_eq_true] at refuted ⊢
      refine fun meets => refuted ?_
      simp only [RealDomain.meets, Bool.and_eq_true, Bool.not_eq_true', decide_eq_true_eq, ge_iff_le,
        Binary64.lt_iff, Binary64.le_iff] at meets ⊢
      obtain ⟨⟨some, -, number, below⟩, number', -, above⟩ := meets
      exact ⟨⟨within.notEmpty some, within.outer.lo, number, within.lower.trans_lt below⟩,
        number', within.outer.hi, above.trans within.upper⟩

theorem truth_finite_eq_yes {s : IntSet} :
    a.truth (.finite s) = .yes ↔ ∀ n ∈ s.values, a.holds (Binary64.ofInt n) = true := by
  simp only [truth]
  split_ifs with all any
  · simpa using all
  · simpa using all
  · simpa using all

theorem truth_finite_eq_no {s : IntSet} :
    a.truth (.finite s) = .no ↔ (Domain.finite s).isEmpty = false ∧
      ∀ n ∈ s.values, (!a.holds (Binary64.ofInt n)) = true := by
  have some : (Domain.finite s).isEmpty = false ↔ ∃ n, n ∈ s.values := by
    simp only [Domain.isEmpty, IntSet.isEmpty, List.isEmpty_eq_false_iff_exists_mem]
  rw [some]
  simp only [truth, Bool.not_eq_true']
  split_ifs with passed reached
  · refine iff_of_false (by simp) ?_
    rintro ⟨⟨n, member⟩, fails⟩
    exact absurd (List.all_eq_true.1 passed n member) (by simp [fails n member])
  · refine iff_of_false (by simp) fun both => ?_
    obtain ⟨n, member, holds⟩ := List.any_eq_true.1 reached
    exact absurd holds (by simp [both.2 n member])
  · simp only [List.all_eq_true, List.any_eq_true, not_forall, not_exists, not_and, Bool.not_eq_true] at passed reached
    obtain ⟨n, member, -⟩ := passed
    exact iff_of_true rfl ⟨⟨n, member⟩, reached⟩

/-- An interval that is not empty cannot pass and fail a test as a whole. -/
theorem truth_real_eq_yes {r : RealDomain} (proper : r.interval.Proper) (some : r.interval.isEmpty = false) :
    a.truth (.real r) = .yes ↔ a.entailed r = true := by
  simp only [truth]
  split_ifs with refuted entailed
  · refine iff_of_false (by simp) fun entailed => ?_
    have encloses : r.interval.Encloses (value r.interval.lo) :=
      ⟨proper, le_rfl, (Interval.isEmpty_eq_false_iff proper).1 some⟩
    exact not_holds_of_refuted encloses refuted (holds_of_entailed encloses entailed)
  · exact iff_of_true rfl entailed
  · exact iff_of_false (by simp) entailed

theorem truth_real_eq_no {r : RealDomain} : a.truth (.real r) = .no ↔ a.refuted r = true := by
  simp only [truth]
  split_ifs <;> simp_all

theorem truth_mono (inside : d.Inside e) (some : d.isEmpty = false) :
    (a.truth e = .yes → a.truth d = .yes) ∧ (a.truth e = .no → a.truth d = .no) := by
  cases d with
  | finite s =>
      cases e with
      | real _ => exact inside.elim
      | finite t =>
          rw [truth_finite_eq_yes, truth_finite_eq_yes, truth_finite_eq_no, truth_finite_eq_no]
          exact ⟨fun all n member => all n (inside n member),
            fun none => ⟨some, fun n member => none.2 n (inside n member)⟩⟩
  | real r =>
      cases e with
      | finite _ => exact inside.elim
      | real q =>
          rw [truth_real_eq_yes inside.2.inner some, truth_real_eq_no, truth_real_eq_no,
            truth_real_eq_yes inside.2.outer (inside.2.notEmpty some)]
          exact ⟨entailed_mono inside.2, refuted_mono inside.2⟩

theorem truthIn_mono (inside : small.Inside big) (a : Atom) :
    (a.truthIn big = .yes → a.truthIn small = .yes) ∧ (a.truthIn big = .no → a.truthIn small = .no) := by
  unfold truthIn
  cases found : small.get? a.var with
  | none => simp [inside.get?_eq_none found]
  | some x =>
      obtain ⟨y, found', -, within⟩ := inside.domain a.var x found
      rw [found']
      exact truth_mono within (inside.some a.var x found)

/-! ## Enforcing -/

/-- All values of a domain pass the test, up to the closure of a half-open bound. -/
def Enforced (a : Atom) : Domain → Prop
  | .finite s => ∀ n ∈ s.values, a.holds (Binary64.ofInt n) = true
  | .real r => r.interval.Within a.closure

theorem proper_closure (a : Atom) : a.closure.Proper := by
  cases a <;> exact Interval.proper_ofBounds _ _

theorem narrows_enforce (a : Atom) : Narrows a.enforce a.var a.Enforced where
  missing _ none := ensures_missing none
  found vars x found proper := by
    have filters {keep : Int → Bool} := (narrows_retain a.var keep).found vars x found proper
    have cuts := (narrows_narrow a.var a.proper_closure).found vars x found proper
    rw [enforce, LeavesPart, Ensures, fetch_bind found]
    cases domain : x.domain with
    | finite s =>
        rw [domain] at filters
        refine filters.discard.congr fun e inside => ?_
        cases e with
        | finite _ => exact Iff.rfl
        | real _ => exact inside.elim
    | real r =>
        rw [domain] at cuts
        refine cuts.discard.congr fun e inside => ?_
        cases e with
        | finite _ => exact inside.elim
        | real _ => exact Iff.rfl

theorem enforced_of_truth (proper : d.Proper) (some : d.isEmpty = false) (yes : a.truth d = .yes) :
    a.Enforced d := by
  cases d with
  | finite s => exact truth_finite_eq_yes.1 yes
  | real r =>
      have entailed := (truth_real_eq_yes proper some).1 yes
      have order := (Interval.isEmpty_eq_false_iff proper).1 some
      exact (Interval.within_iff_encloses proper some).2
        ⟨encloses_closure (holds_of_entailed ⟨proper, le_rfl, order⟩ entailed),
          encloses_closure (holds_of_entailed ⟨proper, order, le_rfl⟩ entailed)⟩

theorem follows_enforce (a : Atom) (inside : small.Inside big) :
    Follows small big a.enforce a.enforce fun _ _ => True :=
  a.narrows_enforce.follows a.narrows_enforce (fun _ => id) inside

/-- A test that is known to hold need not be enforced on smaller domains. -/
theorem spares_enforce (inside : small.Inside big) (yes : a.truthIn small = .yes) :
    Follows small big (pure ()) a.enforce fun _ _ => True := by
  unfold truthIn at yes
  cases found : small.get? a.var with
  | none => simp [found] at yes
  | some x =>
      rw [found] at yes
      obtain ⟨y, -, -, within⟩ := inside.domain a.var x found
      exact a.narrows_enforce.spares inside found
        (enforced_of_truth within.proper.1 (inside.some a.var x found) yes)

/-! ## Refuting -/

/-- The side of the complement is the same for a smaller interval, or the smaller interval has nothing left on
    its side. -/
theorem complementIn_mono (within : i.Within j) {complement : Interval}
    (side : a.complementIn? j = .some complement) :
    ∃ other, a.complementIn? i = .some other ∧ other.Proper ∧
      (other = complement ∨ ∀ k : Interval, k.isEmpty = false → k.Within i → ¬ k.Within other) := by
  cases a with
  | atLeast v bound =>
      obtain rfl := Option.some.inj side
      exact ⟨_, rfl, Interval.proper_ofBounds _ _, .inl rfl⟩
  | below v bound =>
      obtain rfl := Option.some.inj side
      exact ⟨_, rfl, Interval.proper_ofBounds _ _, .inl rfl⟩
  | within v lb ub =>
      simp only [complementIn?, ge_iff_le] at side ⊢
      by_cases above : lb ≤ j.lo
      · rw [if_pos above] at side
        obtain rfl := Option.some.inj side
        obtain ⟨number, -, order⟩ := Binary64.le_iff.1 above
        rw [if_pos (Binary64.le_iff.2 ⟨number, within.inner.lo, order.trans within.lower⟩)]
        exact ⟨_, rfl, Interval.proper_ofBounds _ _, .inl rfl⟩
      · rw [if_neg above] at side
        split_ifs at side with under
        obtain rfl := Option.some.inj side
        obtain ⟨-, number, order⟩ := Binary64.lt_iff.1 under
        by_cases above' : lb ≤ i.lo
        · rw [if_pos above']
          refine ⟨_, rfl, Interval.proper_ofBounds _ _, .inr fun k some inside beyond => ?_⟩
          rw [Interval.isEmpty_eq_false_iff inside.inner] at some
          have low := beyond.lower
          rw [Interval.ofBounds_of_isNumber number Binary64.isNumber_infinity] at low
          exact absurd (low.trans (some.trans (inside.upper.trans within.upper))) (not_le.2 order)
        · have under' : i.hi < ub := Binary64.lt_iff.2 ⟨within.inner.hi, number, within.upper.trans_lt order⟩
          rw [if_neg above', if_pos under']
          exact ⟨_, rfl, Interval.proper_ofBounds _ _, .inl rfl⟩

theorem refute_eq_finite {vars : Variables} {x : Variable} {s : IntSet} (found : vars.get? a.var = some x)
    (domain : x.domain = .finite s) :
    a.refute vars = discard (Variables.retain a.var fun n => !a.holds (Binary64.ofInt n)) vars := by
  simp only [refute, fetch_bind found, domain]

theorem refute_eq_real {vars : Variables} {x : Variable} {r : RealDomain} (found : vars.get? a.var = some x)
    (domain : x.domain = .real r) :
    a.refute vars = (match a.complementIn? r.interval with
      | some complement => discard (Variables.narrow a.var complement)
      | none => pure ()) vars := by
  cases x
  cases domain
  exact fetch_bind found

theorem follows_refute (a : Atom) (inside : small.Inside big) :
    Follows small big a.refute a.refute fun _ _ => True := by
  cases found : small.get? a.var with
  | none => exact (ensures_missing found).mono (fun _ _ => False.elim) fun _ _ => id
  | some x =>
      obtain ⟨y, found', -, within⟩ := inside.domain a.var x found
      have some := inside.some a.var x found
      cases domain : x.domain with
      | finite s =>
          cases domain' : y.domain with
          | real _ => exact (domain ▸ domain' ▸ within : (Domain.finite s).Inside (.real _)).elim
          | finite t =>
              refine .congr (refute_eq_finite found domain) (refute_eq_finite found' domain') ?_
              exact ((narrows_retain a.var _).follows (narrows_retain a.var _) (fun _ => id) inside).discard
      | real r =>
          cases domain' : y.domain with
          | finite _ => exact (domain ▸ domain' ▸ within : (Domain.real r).Inside (.finite _)).elim
          | real q =>
              rw [domain] at within some
              rw [domain'] at within
              have known : Local (fun _ => True) a.refute := .refute trivial
              cases side' : a.complementIn? q.interval with
              | none =>
                  refine .congr rfl ((refute_eq_real found' domain').trans (by rw [side'])) ?_
                  exact .of_shrinks known.shrinks inside fun left below => .pure (below.trans inside) trivial
              | some complement =>
                  obtain ⟨other, side, proper, same⟩ := complementIn_mono within.2 side'
                  refine .congr ((refute_eq_real found domain).trans (by rw [side]))
                    ((refute_eq_real found' domain').trans (by rw [side'])) ?_
                  rcases same with rfl | apart
                  · exact (follows_narrow a.var (.refl proper) inside).discard
                  · refine follows_of_no_part (narrows_narrow a.var proper).discard inside found ?_
                    intro e someE part passes
                    rw [domain] at part
                    cases e with
                    | finite _ => exact part.elim
                    | real p => exact apart p.interval someE part.2 passes

/-- A test that is known to fail need not be refuted on smaller domains. -/
theorem spares_refute (inside : small.Inside big) (no : a.truthIn small = .no) :
    Follows small big (pure ()) a.refute fun _ _ => True := by
  unfold truthIn at no
  cases found : small.get? a.var with
  | none => simp [found] at no
  | some x =>
      rw [found] at no
      change a.truth x.domain = .no at no
      obtain ⟨y, found', -, within⟩ := inside.domain a.var x found
      have some := inside.some a.var x found
      cases domain' : y.domain with
      | finite t =>
          cases domain : x.domain with
          | real _ => exact (domain ▸ domain' ▸ within : (Domain.real _).Inside (.finite t)).elim
          | finite s =>
              refine .congr rfl (refute_eq_finite found' domain') ?_
              exact (narrows_retain a.var _).discard.spares inside found
                (domain ▸ (truth_finite_eq_no.1 (domain ▸ no)).2)
      | real q =>
          refine .congr rfl (refute_eq_real found' domain') ?_
          cases side : a.complementIn? q.interval with
          | none => exact .pure inside trivial
          | some complement =>
              cases domain : x.domain with
              | finite _ => exact (domain ▸ domain' ▸ within : (Domain.finite _).Inside (.real q)).elim
              | real r =>
                  rw [domain] at within some no
                  rw [domain'] at within
                  have refuted := truth_real_eq_no.1 no
                  have order := (Interval.isEmpty_eq_false_iff within.2.inner).1 some
                  have outside {z : EReal} (encloses : r.interval.Encloses z) : complement.Encloses z :=
                    encloses_complementIn (within.2.encloses encloses) (not_holds_of_refuted encloses refuted) side
                  have passes : r.interval.Within complement := (Interval.within_iff_encloses within.2.inner some).2
                    ⟨outside ⟨within.2.inner, le_rfl, order⟩, outside ⟨within.2.inner, order, le_rfl⟩⟩
                  exact (narrows_narrow a.var passes.outer).discard.spares inside found (domain ▸ passes)

end Atom

/-! ## Reified conjunctions -/

theorem Variables.Inside.bounds_notEmpty (inside : small.Inside big) (v : Var) :
    (small.bounds v).isEmpty = false := by
  unfold Variables.bounds
  cases found : small.get? v with
  | none => rfl
  | some x =>
      exact Domain.hull_notEmpty (inside.some v x found)

theorem follows_of_apart {second : NarrowM β} {related : Unit → β → Prop} {v : Var} {onto : Interval}
    (proper : onto.Proper) (inside : small.Inside big)
    (apart : value onto.hi < value (small.bounds v).lo ∨ value (small.bounds v).hi < value onto.lo) :
    Follows small big (discard (Variables.narrow v onto)) second related := by
  cases found : small.get? v with
  | none => exact ((narrows_narrow v proper).discard.missing small found).mono (fun _ _ => False.elim) fun _ _ => id
  | some x =>
      refine follows_of_no_part (narrows_narrow v proper).discard inside found fun e some part passes => ?_
      have same : small.bounds v = x.domain.hull := by rw [Variables.bounds, found]
      rw [same] at apart
      have order := (Interval.isEmpty_eq_false_iff passes.inner).1 (Domain.hull_notEmpty some)
      rcases apart with below | above
      · exact absurd ((part.hull.lower.trans order).trans passes.upper) (not_le.2 below)
      · exact absurd ((passes.lower.trans order).trans part.hull.upper) (not_le.2 above)

theorem spares_forM {step : α → NarrowM PUnit} {as : List α} (inside : small.Inside big)
    (each : ∀ a ∈ as, ∀ big, small.Inside big → Follows small big (pure ()) (step a) fun _ _ => True) :
    Follows small big (pure ()) (as.forM step) fun _ _ => True := by
  have all : Ensures (as.forM step) big (fun _ after => small.Inside after) fun failure _ => ¬ failure.Infeasible :=
    ensures_forM (fun a member big within =>
      (show Ensures (step a) big _ _ from each a member big within).mono (fun _ _ both => both.1) fun _ _ => id) inside
  exact all.mono (fun _ _ within => ⟨within, trivial⟩) fun _ _ => id

namespace Reified

variable {c : Reified} {a : Atom} {vars : Variables}

theorem respond_of_no (member : a ∈ c.atoms) (no : a.truthIn vars = .no) :
    c.respond vars = discard (Variables.narrow c.indicator (.point 0.0)) :=
  if_pos (List.any_eq_true.2 ⟨a, member, by rw [no]; rfl⟩)

theorem respond_of_yes (yes : ∀ a ∈ c.atoms, a.truthIn vars = .yes) :
    c.respond vars = discard (Variables.narrow c.indicator (.point 1.0)) := by
  rw [respond, if_neg, if_pos]
  · simpa using yes
  · simp +contextual [yes]

theorem respond_of_open (noNo : ∀ a ∈ c.atoms, a.truthIn vars ≠ .no) (member : a ∈ c.atoms)
    (notYes : a.truthIn vars ≠ .yes) :
    c.respond vars =
      if (vars.bounds c.indicator).lo ≥ 1.0 then c.atoms.forM Atom.enforce
      else if (vars.bounds c.indicator).hi ≤ 0.0 then
        match c.atoms.filter fun a => a.truthIn vars == .unknown with
        | [last] => last.refute
        | _ => pure ()
      else pure () := by
  refine (if_neg ?_).trans (if_neg ?_)
  · simpa using noNo
  · simpa using ⟨a, member, notYes⟩

/-- Some test is known to fail, or all are known to hold, or one is open and none is known to fail. -/
theorem cases_truth (c : Reified) (vars : Variables) :
    (∃ a ∈ c.atoms, a.truthIn vars = .no) ∨ (∀ a ∈ c.atoms, a.truthIn vars = .yes) ∨
      ((∀ a ∈ c.atoms, a.truthIn vars ≠ .no) ∧ ∃ a ∈ c.atoms, a.truthIn vars ≠ .yes) := by
  by_cases no : ∃ a ∈ c.atoms, a.truthIn vars = .no
  · exact .inl no
  · by_cases yes : ∀ a ∈ c.atoms, a.truthIn vars = .yes
    · exact .inr (.inl yes)
    · simp only [not_exists, not_and, not_forall] at no yes
      obtain ⟨a, member, notYes⟩ := yes
      exact .inr (.inr ⟨no, a, member, notYes⟩)

theorem shrinks_respond (c : Reified) (vars : Variables) : Shrinks (c.respond vars) :=
  (Local.respond (fun _ _ => trivial) vars : Local (fun _ => True) _).shrinks

/-- The indicator is known to be 1, so all tests are enforced. On the smaller domains they may be decided. -/
theorem follows_enforcing (inside : small.Inside big) (on : (big.bounds c.indicator).lo ≥ 1.0) :
    Follows small big (c.respond small) (c.atoms.forM Atom.enforce) fun _ _ => True := by
  have bounds := inside.bounds c.indicator
  have low : (1 : EReal) ≤ value (small.bounds c.indicator).lo :=
    (Binary64.value_one.symm.le.trans (Binary64.le_iff.1 on).2.2).trans bounds.lower
  rcases c.cases_truth small with ⟨a, member, no⟩ | yes | ⟨noNo, a, member, notYes⟩
  · rw [respond_of_no member no]
    refine follows_of_apart (Interval.proper_ofBounds _ _) inside (.inl ?_)
    change value 0.0 < _
    rw [Binary64.value_zero]
    exact zero_lt_one.trans_le low
  · refine .of_shrinks (c.shrinks_respond small) inside fun left below => ?_
    exact spares_forM (below.trans inside) fun a member big within =>
      Atom.spares_enforce within ((a.truthIn_mono below).1 (yes a member))
  · have on' : (small.bounds c.indicator).lo ≥ 1.0 :=
      Binary64.le_iff.2 ⟨Binary64.isNumber_one, bounds.inner.lo, Binary64.value_one.le.trans low⟩
    rw [respond_of_open noNo member notYes, if_pos on']
    exact .forM (List.forall₂_same.2 fun _ _ => rfl)
      (fun a _ _ _ within same => same ▸ a.follows_enforce within) inside

/-- The indicator is known to be 0 and one test is open, which is refuted. On the smaller domains it may be
    decided. -/
theorem follows_refuting (inside : small.Inside big) (off : (big.bounds c.indicator).hi ≤ 0.0)
    (noNo : ∀ a ∈ c.atoms, a.truthIn big ≠ .no) {last : Atom}
    (single : (c.atoms.filter fun a => a.truthIn big == .unknown) = [last]) :
    Follows small big (c.respond small) last.refute fun _ _ => True := by
  have bounds := inside.bounds c.indicator
  have high : value (small.bounds c.indicator).hi ≤ 0 :=
    bounds.upper.trans ((Binary64.le_iff.1 off).2.2.trans Binary64.value_zero.le)
  -- Every other test is known to hold, on the smaller domains too.
  have only {a : Atom} (member : a ∈ c.atoms) (notYes : a.truthIn small ≠ .yes) : a = last := by
    have open_ : a.truthIn big = .unknown := by
      cases known : a.truthIn big with
      | yes => exact absurd ((a.truthIn_mono inside).1 known) notYes
      | no => exact absurd known (noNo a member)
      | unknown => rfl
    have listed : a ∈ c.atoms.filter fun a => a.truthIn big == .unknown := by simp [member, open_]
    rwa [single, List.mem_singleton] at listed
  rcases c.cases_truth small with ⟨a, member, no⟩ | yes | ⟨noNo', a, member, notYes⟩
  · obtain rfl := only member (by simp [no])
    refine .of_shrinks (c.shrinks_respond small) inside fun left below => ?_
    exact Atom.spares_refute (below.trans inside) ((a.truthIn_mono below).2 no)
  · rw [respond_of_yes yes]
    refine follows_of_apart (Interval.proper_ofBounds _ _) inside (.inr ?_)
    change _ < value 1.0
    rw [Binary64.value_one]
    exact high.trans_lt zero_lt_one
  · obtain rfl := only member notYes
    have some := (Interval.isEmpty_eq_false_iff bounds.inner).1 (inside.bounds_notEmpty c.indicator)
    have off' : (small.bounds c.indicator).hi ≤ 0.0 :=
      Binary64.le_iff.2 ⟨bounds.inner.hi, Binary64.isNumber_zero, high.trans Binary64.value_zero.ge⟩
    have notOn : ¬ (small.bounds c.indicator).lo ≥ 1.0 := fun on => by
      have low := (Binary64.value_one.ge.trans (Binary64.le_iff.1 on).2.2).trans (some.trans high)
      exact absurd low (by norm_num)
    have unknown : a.truthIn small = .unknown := by
      cases known : a.truthIn small with
      | yes => exact absurd known notYes
      | no => exact absurd known (noNo' a member)
      | unknown => rfl
    have single' : (c.atoms.filter fun a => a.truthIn small == .unknown) = [a] := by
      have nested := congrArg (List.filter fun a => a.truthIn small == .unknown) single
      rw [List.filter_filter, List.filter_cons_of_pos (by simp [unknown]), List.filter_nil] at nested
      rw [← nested]
      refine List.filter_congr fun b member' => ?_
      cases known : b.truthIn small with
      | yes => rfl
      | no => rfl
      | unknown =>
          obtain rfl := only member' (by simp [known])
          have listed : b ∈ c.atoms.filter fun a => a.truthIn big == .unknown := by simp [single]
          simpa using (List.mem_filter.1 listed).2.symm
    rw [respond_of_open noNo' member notYes, if_neg notOn, if_pos off', single']
    exact a.follows_refute inside

theorem follows_respond (inside : small.Inside big) :
    Follows small big (c.respond small) (c.respond big) fun _ _ => True := by
  have lazily : Follows small big (c.respond small) (pure ()) fun _ _ => True :=
    .of_shrinks (c.shrinks_respond small) inside fun left below => .pure (below.trans inside) trivial
  have point (x : Float) : (Interval.point x).Within (.point x) := .refl (Interval.proper_ofBounds x x)
  rcases c.cases_truth big with ⟨a, member, no⟩ | yes | ⟨noNo, a, member, notYes⟩
  · rw [respond_of_no member no, respond_of_no member ((a.truthIn_mono inside).2 no)]
    exact (follows_narrow _ (point 0.0) inside).discard
  · rw [respond_of_yes yes, respond_of_yes fun a member => (a.truthIn_mono inside).1 (yes a member)]
    exact (follows_narrow _ (point 1.0) inside).discard
  · rw [respond_of_open noNo member notYes]
    split_ifs with on off
    · exact follows_enforcing inside on
    · split
      · next last single => exact follows_refuting inside off noNo single
      · exact lazily
    · exact lazily

theorem follows (c : Reified) (inside : small.Inside big) :
    Follows small big c.propagate c.propagate fun _ _ => True := by
  rw [propagate_eq]
  exact (follows_require c.scope inside).bind fun _ _ _ _ inside _ => .get (follows_respond inside)

end Reified

end StatBounds
