import StatBounds.Proofs.Ensures
import StatBounds.Proofs.Store.Narrowing
import StatBounds.Proofs.Store.Steps

/-! # The trail

Inside a batch each replaced domain is put on the trail. So from the domains that are there now and the
part of the trail that has grown since, the domains of an earlier time are found again: each position
had the oldest domain that was saved for it.
-/

namespace StatBounds

/-- A finite domain is listed in order, and an interval is one of numbers and not empty. -/
def Domain.Sound : Domain → Prop
  | finite s => s.values.Pairwise (· < ·)
  | real r => r.interval.Proper ∧ r.interval.isEmpty = false

theorem Domain.sound_finite (s : IntSet) : (finite s).Sound :=
  s.increasing

def oldest (saved : List (Var × Domain)) (i : Nat) (d : Domain) : Domain :=
  saved.foldl (fun d entry => if entry.1.index = i then entry.2 else d) d

/-- The variable at a position as it was before domains were saved. -/
def rewound (saved : List (Var × Domain)) (arena : Array Variable) (i : Nat) : Option Variable :=
  arena[i]?.map fun x => { x with domain := oldest saved i x.domain }

theorem rewound_nil (arena : Array Variable) (i : Nat) : rewound [] arena i = arena[i]? := by
  cases found : arena[i]? <;> simp [rewound, found, oldest]

/-- What was saved later is put back first. -/
theorem rewound_append {newer older : List (Var × Domain)} {first last : Array Variable} {i : Nat}
    (back : rewound newer last i = first[i]?) : rewound (newer ++ older) last i = rewound older first i := by
  rw [rewound, rewound, ← back, rewound, Option.map_map]
  simp only [oldest, List.foldl_append, Function.comp_def]

namespace Variables

/-- All domains are sound. -/
def Sound (vars : Variables) : Prop :=
  ∀ x ∈ vars.arena, x.domain.Sound

/-- What narrowing may do: domains are replaced by sound ones, and inside a batch the trail grows by what
    leads back. -/
structure Narrowed (before after : Variables) : Prop where
  names : after.names = before.names
  ratio : after.ratio = before.ratio
  depth : after.depth = before.depth
  named : after.arena.map Variable.name = before.arena.map Variable.name
  sound : before.Sound → after.Sound
  trail : ∃ saved, after.trail = saved ++ before.trail ∧
    (∀ entry ∈ saved, before.contains entry.1 = true ∧ (before.Sound → entry.2.Sound)) ∧
    (before.depth = 0 → saved = []) ∧
    (0 < before.depth → ∀ i, rewound saved after.arena i = before.arena[i]?)
  changed : ∃ recorded : List Var, after.changed.toList = before.changed.toList ++ recorded ∧
    ∀ v ∈ recorded, before.contains v = true

theorem arena_replaced (vars : Variables) (v : Var) (old domain : Domain) :
    ((vars.save v old).setDomain v domain).arena =
      vars.arena.modify v.index fun x => { x with domain } := by
  unfold save
  split_ifs <;> rfl

theorem changed_replaced (vars : Variables) (v : Var) (old domain : Domain) :
    ((vars.save v old).setDomain v domain).changed = vars.changed := by
  unfold save
  split_ifs <;> rfl

theorem map_name_setDomain (vars : Variables) (v : Var) (domain : Domain) :
    (vars.setDomain v domain).arena.map Variable.name = vars.arena.map Variable.name := by
  refine Array.ext (by simp [setDomain]) fun i small _ => ?_
  simp only [setDomain, Array.getElem_map, Array.getElem_modify]
  split_ifs <;> rfl

namespace Narrowed

variable {before middle after : Variables}

/-- Narrowing renames no variable. -/
theorem names_toList (narrowed : Narrowed before after) :
    after.arena.toList.map Variable.name = before.arena.toList.map Variable.name := by
  simpa using congrArg Array.toList narrowed.named

theorem size (narrowed : Narrowed before after) : after.size = before.size := by
  simpa [Variables.size] using congrArg Array.size narrowed.named

theorem contains (narrowed : Narrowed before after) (v : Var) : after.contains v = before.contains v := by
  rw [Variables.contains, Variables.contains, narrowed.size]

theorem refl (vars : Variables) : Narrowed vars vars where
  names := rfl
  ratio := rfl
  depth := rfl
  named := rfl
  sound := id
  trail := ⟨[], rfl, by simp, fun _ => rfl, fun _ => rewound_nil _⟩
  changed := ⟨[], by simp, by simp⟩

theorem trans (first : Narrowed before middle) (second : Narrowed middle after) : Narrowed before after where
  names := second.names.trans first.names
  ratio := second.ratio.trans first.ratio
  depth := second.depth.trans first.depth
  named := second.named.trans first.named
  sound := second.sound ∘ first.sound
  trail := by
    obtain ⟨older, trail₁, known₁, none₁, back₁⟩ := first.trail
    obtain ⟨newer, trail₂, known₂, none₂, back₂⟩ := second.trail
    rw [first.depth] at none₂ back₂
    refine ⟨newer ++ older, by rw [trail₂, trail₁, List.append_assoc], fun entry member => ?_,
      fun shallow => ?_, fun deep i => ?_⟩
    · rcases List.mem_append.1 member with new | old
      · have ⟨inside, sound⟩ := known₂ entry new
        exact ⟨first.contains entry.1 ▸ inside, fun start => sound (first.sound start)⟩
      · exact known₁ entry old
    · rw [none₁ shallow, none₂ shallow, List.nil_append]
    · rw [rewound_append (back₂ deep i), back₁ deep i]
  changed := by
    obtain ⟨older, changed₁, known₁⟩ := first.changed
    obtain ⟨newer, changed₂, known₂⟩ := second.changed
    refine ⟨older ++ newer, by rw [changed₂, changed₁, List.append_assoc], fun v member => ?_⟩
    rcases List.mem_append.1 member with old | new
    · exact known₁ v old
    · exact first.contains v ▸ known₂ v new

/-- Recording a variable changes no domain. -/
theorem record {v : Var} (known : before.contains v = true) : Narrowed before (before.record v) where
  names := rfl
  ratio := rfl
  depth := rfl
  named := rfl
  sound := id
  trail := ⟨[], rfl, by simp, fun _ => rfl, fun _ => rewound_nil _⟩
  changed := ⟨[v], by simp [Variables.record], by simpa using known⟩

/-- Saving a domain before it is replaced makes it possible to go back. -/
theorem replace {v : Var} {x : Variable} (found : before.get? v = some x) {domain : Domain}
    (sound : before.Sound → domain.Sound) : Narrowed before ((before.save v x.domain).setDomain v domain) := by
  obtain ⟨inside, here⟩ := Array.getElem?_eq_some_iff.1 found
  have known : before.contains v = true := decide_eq_true inside
  have arena := arena_replaced before v x.domain domain
  refine ⟨?_, ?_, ?_, ?_, fun start y member => ?_, ?_, ?_⟩
  · unfold Variables.save
    split_ifs <;> rfl
  · unfold Variables.save
    split_ifs <;> rfl
  · unfold Variables.save
    split_ifs <;> rfl
  · rw [arena]
    exact map_name_setDomain before v domain
  · rw [arena] at member
    obtain ⟨i, small, rfl⟩ := Array.getElem_of_mem member
    rw [Array.getElem_modify]
    split_ifs
    · exact sound start
    · exact start _ (Array.getElem_mem _)
  · by_cases deep : 0 < before.depth
    · refine ⟨[(v, x.domain)], ?_, fun entry member => ?_, fun shallow => ?_, fun _ i => ?_⟩
      · simp [Variables.save, Variables.setDomain, deep]
      · obtain rfl := List.mem_singleton.1 member
        exact ⟨known, fun start => start x (Array.mem_of_getElem? found)⟩
      · omega
      · rw [rewound, arena, Array.getElem?_modify]
        by_cases same : v.index = i
        · subst same
          rw [if_pos rfl, show before.arena[v.index]? = some x from found]
          simp [oldest]
        · rw [if_neg same]
          cases before.arena[i]? <;> simp [oldest, same]
    · refine ⟨[], ?_, by simp, fun _ => rfl, fun deep' => absurd deep' deep⟩
      simp [Variables.save, Variables.setDomain, deep]
  · exact ⟨[], by simp [changed_replaced], by simp⟩

end Narrowed

end Variables

/-! ## Narrowing operations -/

open Variables (Narrowed)

/-- What an operation on variables does is narrowing, however it ends. If all variables that it addresses
    exist, then it does not miss any. -/
def NarrowsWithin {α : Type} (inside : Var → Prop) (operation : NarrowM α) : Prop :=
  ∀ vars, Ensures operation vars (fun _ after => Narrowed vars after) fun failure after =>
    Narrowed vars after ∧ ((∀ v, inside v → vars.contains v = true) → failure.InRange)

theorem ensures_fetch {vars : Variables} {v : Var} {ok : Variable → Variables → Prop}
    {failed : Failure → Variables → Prop} (some : ∀ x, vars.get? v = some x → ok x vars)
    (none : vars.get? v = none → failed (.fault (.outOfRange v.index vars.size)) vars) :
    Ensures (Variables.fetch v) vars ok failed := by
  simp only [Variables.fetch, ensures_bind, ensures_get]
  cases found : vars.get? v with
  | none => exact none found
  | some x => exact some x found

theorem get?_ne_none {vars : Variables} {v : Var} (known : vars.contains v = true) : vars.get? v ≠ none := by
  have inside : v.index < vars.arena.size := of_decide_eq_true known
  simp [Variables.get?, inside]

theorem contains_of_get? {vars : Variables} {v : Var} {x : Variable} (found : vars.get? v = some x) :
    vars.contains v = true :=
  decide_eq_true (Array.getElem?_eq_some_iff.1 found).1

section

variable {inside : Var → Prop} {v : Var}

theorem narrowsWithin_fetch (known : inside v) : NarrowsWithin inside (Variables.fetch v) := fun vars =>
  ensures_fetch (fun _ _ => .refl vars) fun missing =>
    ⟨.refl vars, fun all => absurd missing (get?_ne_none (all v known))⟩

theorem narrowsWithin_sift (known : inside v) (keep : List Int → Int → Bool) :
    NarrowsWithin inside (Variables.sift v keep) := by
  intro vars
  cases found : vars.get? v with
  | none =>
      rw [Ensures, sift_missing found]
      exact ⟨.refl vars, fun all => absurd found (get?_ne_none (all v known))⟩
  | some x =>
      cases domain : x.domain with
      | real r =>
          rw [Ensures, sift_real found domain]
          exact ⟨.refl vars, fun _ _ _ => by simp⟩
      | finite s =>
          have filtered (kept : IntSet) : Narrowed vars ((vars.save v x.domain).setDomain v (.finite kept)) :=
            Narrowed.replace found fun _ => kept.increasing
          have known := contains_of_get? found
          rcases sift_cases keep found domain with ⟨-, same⟩ | ⟨asked, -, same⟩
          · rw [Ensures, same]
            exact .refl vars
          · rw [Ensures, same]
            split_ifs
            · exact ⟨filtered _, fun _ _ _ => by simp⟩
            · exact (filtered _).trans (.record ((filtered _).contains v ▸ known))

theorem narrowsWithin_narrow (known : inside v) (onto : Interval) :
    NarrowsWithin inside (Variables.narrow v onto) := by
  intro vars
  unfold Variables.narrow
  rw [ensures_bind]
  refine ensures_fetch (fun x found => ?_) fun missing =>
    ⟨.refl vars, fun all => absurd missing (get?_ne_none (all v known))⟩
  cases domain : x.domain with
  | finite s =>
      dsimp only
      split_ifs
      · exact narrowsWithin_sift known _ vars
      · exact .refl vars
  | real r =>
      dsimp only
      split_ifs with same none
      · exact .refl vars
      · exact ⟨.refl vars, fun _ _ _ => by simp⟩
      · have replaced : Narrowed vars ((vars.save v (.real r)).setDomain v
            (.real { r with interval := r.interval.intersect onto })) := by
          rw [← domain]
          refine Narrowed.replace found fun sound => ?_
          have start := sound x (Array.mem_of_getElem? found)
          rw [domain] at start
          exact ⟨Interval.proper_intersect start.1 onto, by simpa using none⟩
        have known := contains_of_get? found
        simp only [ensures_bind, ensures_modify, ensures_pure]
        split_ifs
        · exact replaced.trans (.record (replaced.contains v ▸ known))
        · exact replaced

theorem Narrowing.narrowsWithin {α : Type} {operation : NarrowM α}
    (narrowing : Narrowing inside operation) : NarrowsWithin inside operation := by
  induction narrowing with
  | pure a => exact fun vars => .refl vars
  | fail inRange => exact fun vars => ⟨.refl vars, fun _ => inRange⟩
  | bind head tail ihHead ihTail =>
      intro vars
      rw [ensures_bind]
      refine (ihHead vars).mono (fun a middle first => ?_) fun _ _ fails => fails
      refine (ihTail a middle).mono (fun b after second => first.trans second)
        fun failure after fails => ⟨first.trans fails.1, fun all => fails.2 fun v known => ?_⟩
      rw [first.contains]
      exact all v known
  | read tail same ih => exact fun vars => ensures_bind.2 (ih vars vars)
  | fetch known => exact narrowsWithin_fetch known
  | sift known keep => exact narrowsWithin_sift known keep
  | narrow known onto => exact narrowsWithin_narrow known onto
  | @attempt act body ih =>
      intro vars
      have inner := ih vars
      unfold Ensures at inner ⊢
      simp only [Act.run]
      cases outcome : act.run vars with
      | ok reply after =>
          rw [outcome] at inner
          exact inner
      | error failure after =>
          rw [outcome] at inner
          cases failure with
          | error e => exact inner.1
          | fault fault => exact inner

end

end StatBounds
