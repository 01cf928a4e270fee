import StatBounds.Proofs.Store.Trail
import StatBounds.Store.Batch

/-! # Consistent stores

The arena of variables and the list of constraints decide everything else that a store keeps: which names
are in use, and which constraints watch which variable. The trail addresses variables that exist.
-/

namespace StatBounds

open Variables (Narrowed)

/-- What a store keeps about its variables and constraints is right. -/
structure Store.Consistent (store : Store) : Prop where
  watched : store.watchers.size = store.vars.size
  increasing : ∀ list ∈ store.watchers, list.Pairwise (· < ·)
  watches : ∀ (v : Var) list, store.watchers[v.index]? = some list →
    ∀ position, position ∈ list ↔ ∃ c, store.constraints[position]? = some c ∧ v ∈ c.scope
  scope : ∀ c ∈ store.constraints, ∀ v ∈ c.scope, store.vars.contains v = true
  names : ∀ name v, store.vars.names[name]? = some v ↔ ∃ x, store.vars.get? v = some x ∧ x.name = name
  sound : store.vars.Sound
  saved : ∀ entry ∈ store.vars.trail, store.vars.contains entry.1 = true ∧ entry.2.Sound
  settled : store.vars.depth = 0 → store.vars.trail = []

/-- The last store comes from the first one by operations that have closed every batch that they have
    opened, and none that was open before. -/
structure Store.Within (first last : Store) : Prop where
  config : last.config = first.config
  ratio : last.vars.ratio = first.vars.ratio
  depth : last.vars.depth = first.vars.depth
  constraints : ∃ newer, last.constraints.toList = first.constraints.toList ++ newer
  more : first.vars.size ≤ last.vars.size
  trail : ∃ saved, last.vars.trail = saved ++ first.vars.trail ∧
    (0 < first.vars.depth → ∀ i < first.vars.size, rewound saved last.vars.arena i = first.vars.arena[i]?)

namespace Store

variable {first middle last store : Store}

theorem Within.refl (store : Store) : store.Within store where
  config := rfl
  ratio := rfl
  depth := rfl
  constraints := ⟨[], by simp⟩
  more := le_rfl
  trail := ⟨[], rfl, fun _ _ _ => rewound_nil _ _⟩

theorem Within.trans (one : first.Within middle) (two : middle.Within last) : first.Within last where
  config := two.config.trans one.config
  ratio := two.ratio.trans one.ratio
  depth := two.depth.trans one.depth
  constraints := by
    obtain ⟨older, same₁⟩ := one.constraints
    obtain ⟨newer, same₂⟩ := two.constraints
    exact ⟨older ++ newer, by rw [same₂, same₁, List.append_assoc]⟩
  more := one.more.trans two.more
  trail := by
    obtain ⟨older, trail₁, back₁⟩ := one.trail
    obtain ⟨newer, trail₂, back₂⟩ := two.trail
    refine ⟨newer ++ older, by rw [trail₂, trail₁, List.append_assoc], fun deep i inside => ?_⟩
    rw [rewound_append (back₂ (one.depth ▸ deep) i (inside.trans_le one.more)), back₁ deep i inside]

/-! ## Narrowing -/

theorem get?_name_of_narrowed {before after : Variables} (narrowed : Narrowed before after) (v : Var)
    (name : String) : (∃ x, after.get? v = some x ∧ x.name = name) ↔
      ∃ x, before.get? v = some x ∧ x.name = name := by
  have named := congrArg (·[v.index]?) narrowed.named
  simp only [Array.getElem?_map] at named
  simp only [Variables.get?, ← Option.map_eq_some_iff, named]

theorem Consistent.narrowed (consistent : store.Consistent) {after : Variables}
    (narrowed : Narrowed store.vars after) : Consistent { store with vars := after } where
  watched := consistent.watched.trans narrowed.size.symm
  increasing := consistent.increasing
  watches := consistent.watches
  scope c member v inScope := (narrowed.contains v).trans (consistent.scope c member v inScope)
  names name v := by
    rw [get?_name_of_narrowed narrowed, ← consistent.names]
    exact iff_of_eq (congrArg (fun names => names[name]? = some v) narrowed.names)
  sound := narrowed.sound consistent.sound
  saved := by
    obtain ⟨saved, trail, known, -⟩ := narrowed.trail
    intro entry member
    rw [trail] at member
    rw [narrowed.contains]
    rcases List.mem_append.1 member with new | old
    · exact ⟨(known entry new).1, (known entry new).2 consistent.sound⟩
    · exact consistent.saved entry old
  settled shallow := by
    obtain ⟨saved, trail, -, none, -⟩ := narrowed.trail
    have shallow : store.vars.depth = 0 := narrowed.depth ▸ shallow
    rw [trail, none shallow, consistent.settled shallow, List.append_nil]

theorem Within.narrowed {after : Variables} (narrowed : Narrowed store.vars after) :
    store.Within { store with vars := after } where
  config := rfl
  ratio := narrowed.ratio
  depth := narrowed.depth
  constraints := ⟨[], by simp⟩
  more := narrowed.size.ge
  trail := by
    obtain ⟨saved, trail, -, -, back⟩ := narrowed.trail
    exact ⟨saved, trail, fun deep i _ => back deep i⟩

/-! ## New variables -/

/-- The store with one more variable. -/
def extended (store : Store) (name : String) (domain : Domain) : Store :=
  { store with
    vars := { store.vars with
      arena := store.vars.arena.push { name, domain }
      names := store.vars.names.insert name ⟨store.vars.size⟩ }
    watchers := store.watchers.push [] }

theorem get?_extended {name : String} {domain : Domain} (v : Var) :
    (store.extended name domain).vars.get? v =
      if v.index = store.vars.size then some { name, domain } else store.vars.get? v := by
  simp only [extended, Variables.get?, Array.getElem?_push]
  rfl

theorem size_extended {name : String} {domain : Domain} :
    (store.extended name domain).vars.size = store.vars.size + 1 :=
  Array.size_push _

theorem contains_extended {name : String} {domain : Domain} {v : Var}
    (known : store.vars.contains v = true) : (store.extended name domain).vars.contains v = true := by
  have inside : v.index < store.vars.size := of_decide_eq_true known
  exact decide_eq_true (by rw [size_extended]; omega)

/-- A variable with a new name leaves a store consistent. -/
theorem Consistent.extended (consistent : store.Consistent) {name : String} {domain : Domain}
    (new : store.vars.names.contains name = false) (sound : domain.Sound) :
    (store.extended name domain).Consistent where
  watched := by simp [Store.extended, Variables.size, consistent.watched]
  increasing list member := by
    rcases Array.mem_push.1 member with older | rfl
    · exact consistent.increasing list older
    · exact .nil
  watches v list listed := by
    simp only [Store.extended, Array.getElem?_push] at listed
    split_ifs at listed with last
    · obtain rfl := Option.some.inj listed
      refine fun position => ⟨fun member => absurd member (by simp), ?_⟩
      rintro ⟨c, found, inScope⟩
      have known : v.index < store.vars.size :=
        of_decide_eq_true (consistent.scope c (Array.mem_of_getElem? found) v inScope)
      exact absurd last (by rw [consistent.watched]; omega)
    · exact consistent.watches v list listed
  scope c member v inScope := contains_extended (consistent.scope c member v inScope)
  names name' v := by
    have unused := Std.ExtHashMap.getElem?_eq_none_of_contains_eq_false new
    rw [get?_extended]
    show (store.vars.names.insert name ⟨store.vars.size⟩)[name']? = some v ↔ _
    rw [Std.ExtHashMap.getElem?_insert]
    by_cases same : name = name'
    · subst same
      rw [if_pos (beq_self_eq_true _), Option.some_inj]
      refine ⟨fun here => ⟨_, by rw [← here, if_pos rfl], rfl⟩, ?_⟩
      rintro ⟨x, found, named⟩
      split_ifs at found with last
      · exact congrArg Var.mk last.symm
      · have used := (consistent.names name v).2 ⟨x, found, named⟩
        exact absurd used (by simp [unused])
    · rw [if_neg (by simpa using same), consistent.names]
      refine exists_congr fun x => and_congr_left fun named => ?_
      split_ifs with last
      · have missing : store.vars.get? v = none := by simp [Variables.get?, last, Variables.size]
        rw [missing, Option.some_inj]
        refine ⟨fun found => by simp at found, fun here => ?_⟩
        subst here
        exact absurd named same
      · rfl
  sound x member := by
    rcases Array.mem_push.1 member with older | rfl
    · exact consistent.sound x older
    · exact sound
  saved entry member :=
    ⟨contains_extended (consistent.saved entry member).1, (consistent.saved entry member).2⟩
  settled := consistent.settled

theorem Within.extended {name : String} {domain : Domain} :
    store.Within (store.extended name domain) where
  config := rfl
  ratio := rfl
  depth := rfl
  constraints := ⟨[], by simp [Store.extended]⟩
  more := by rw [size_extended]; exact Nat.le_succ _
  trail := by
    refine ⟨[], rfl, fun _ i inside => ?_⟩
    rw [rewound_nil]
    exact (Array.getElem?_push_lt inside).trans (Array.getElem?_eq_getElem inside).symm

/-! ## New constraints -/

theorem size_watch (watchers : Array (List Nat)) (position : Nat) (scope : List Var) :
    (watch watchers position scope).size = watchers.size := by
  unfold watch
  induction scope.eraseDups generalizing watchers with
  | nil => rfl
  | cons v rest ih => rw [List.foldl_cons, ih, Array.size_modify]

theorem nodup_eraseDups {α : Type} [DecidableEq α] : ∀ list : List α, list.eraseDups.Nodup
  | [] => by simp
  | a :: rest => by
      rw [List.eraseDups_cons, List.nodup_cons]
      exact ⟨by simp [List.mem_eraseDups], nodup_eraseDups _⟩
termination_by list => list.length
decreasing_by exact Nat.lt_succ_of_le (List.length_filter_le _ _)

/-- The new position comes last in the lists of the scope, once, and the other lists stay. -/
theorem getElem?_watch (watchers : Array (List Nat)) (position : Nat) (scope : List Var) (v : Var) :
    (watch watchers position scope)[v.index]? =
      watchers[v.index]?.map fun list => if v ∈ scope then list ++ [position] else list := by
  unfold watch
  simp only [← List.mem_eraseDups (a := v) (l := scope)]
  have once := nodup_eraseDups scope
  generalize scope.eraseDups = distinct at once ⊢
  induction distinct generalizing watchers with
  | nil => simp
  | cons w rest ih =>
      have ⟨fresh, once⟩ := List.nodup_cons.1 once
      rw [List.foldl_cons, ih _ once, Array.getElem?_modify]
      by_cases here : w.index = v.index
      · obtain rfl : w = v := congrArg Var.mk here
        simp [fresh, Function.comp_def]
      · have other : v ≠ w := fun same => here (same ▸ rfl)
        simp [here, other]

/-- The store with one more constraint. -/
def posting (store : Store) (c : Constraint) : Store :=
  { store with
    watchers := watch store.watchers store.constraints.size c.scope
    constraints := store.constraints.push c
    posted := store.posted.push c.label }

/-- A constraint over existing variables leaves a store consistent. -/
theorem Consistent.posting (consistent : store.Consistent) {c : Constraint}
    (known : ∀ v ∈ c.scope, store.vars.contains v = true) : (store.posting c).Consistent where
  watched := (size_watch _ _ _).trans consistent.watched
  increasing list member := by
    obtain ⟨i, listed⟩ := Array.getElem?_of_mem member
    obtain ⟨older, found, rfl⟩ := Option.map_eq_some_iff.1 ((getElem?_watch _ _ _ ⟨i⟩).symm.trans listed)
    have increasing := consistent.increasing older (Array.mem_of_getElem? found)
    split_ifs
    · refine List.pairwise_append.2 ⟨increasing, List.pairwise_singleton _ _, fun p earlier q last => ?_⟩
      obtain rfl := List.mem_singleton.1 last
      obtain ⟨d, there, -⟩ := (consistent.watches ⟨i⟩ older found p).1 earlier
      exact (Array.getElem?_eq_some_iff.1 there).1
    · exact increasing
  watches v list listed position := by
    have listed : (watch store.watchers store.constraints.size c.scope)[v.index]? = some list := listed
    rw [getElem?_watch, Option.map_eq_some_iff] at listed
    obtain ⟨older, found, rfl⟩ := listed
    have known := consistent.watches v older found position
    simp only [Store.posting, Array.getElem?_push]
    by_cases last : position = store.constraints.size
    · subst last
      have new : store.constraints.size ∉ older := fun earlier => by
        obtain ⟨d, found, -⟩ := known.1 earlier
        exact absurd (Array.getElem?_eq_some_iff.1 found).1 (lt_irrefl _)
      by_cases inScope : v ∈ c.scope <;> simp [inScope, new]
    · rw [if_neg last, ← known]
      by_cases inScope : v ∈ c.scope <;> simp [inScope, last]
  scope d member v inScope := by
    rcases Array.mem_push.1 member with older | rfl
    · exact consistent.scope d older v inScope
    · exact known v inScope
  names := consistent.names
  sound := consistent.sound
  saved := consistent.saved
  settled := consistent.settled

theorem Within.posting {c : Constraint} : store.Within (store.posting c) where
  config := rfl
  ratio := rfl
  depth := rfl
  constraints := ⟨[c], Array.toList_push⟩
  more := le_rfl
  trail := ⟨[], rfl, fun _ _ _ => rewound_nil _ _⟩

end Store

end StatBounds
