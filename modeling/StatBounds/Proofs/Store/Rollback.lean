import StatBounds.Proofs.Store.Consistency

/-! # Closing batches

A batch that succeeded is closed by forgetting about it, and one that failed by going back to where it
began. What is known of the store since then is enough to find everything as it was.
-/

namespace StatBounds

namespace Store

variable {first last store : Store}

/-! ## Batches -/

theorem Consistent.openBatch (consistent : store.Consistent) : store.openBatch.Consistent :=
  { consistent with settled := fun shallow => absurd shallow (Nat.succ_ne_zero _) }

/-- Closing a batch that succeeded leaves a store consistent. -/
theorem Consistent.commit (consistent : store.Consistent) : store.commit.Consistent where
  watched := consistent.watched
  increasing := consistent.increasing
  watches := consistent.watches
  scope := consistent.scope
  names := consistent.names
  sound := consistent.sound
  saved entry member := by
    simp only [Store.commit] at member
    split_ifs at member with outermost
    · exact absurd member (by simp)
    · exact consistent.saved entry member
  settled shallow := if_pos shallow

theorem depth_commit (inner : first.openBatch.Within last) : last.commit.vars.depth = first.vars.depth := by
  rw [Store.commit, inner.depth]
  exact Nat.add_sub_cancel _ _

/-- What a successful batch did, the operations around it might as well have done. -/
theorem Within.commit (consistent : first.Consistent) (inner : first.openBatch.Within last) :
    first.Within last.commit where
  config := inner.config
  ratio := inner.ratio
  depth := depth_commit inner
  constraints := inner.constraints
  more := inner.more
  trail := by
    obtain ⟨saved, trail, back⟩ := inner.trail
    by_cases shallow : first.vars.depth = 0
    · refine ⟨[], ?_, fun deep => absurd shallow deep.ne'⟩
      rw [consistent.settled shallow]
      exact if_pos ((depth_commit inner).trans shallow)
    · refine ⟨saved, ?_, fun _ i inside => back (Nat.succ_pos _) i inside⟩
      exact (if_neg fun now => shallow ((depth_commit inner).symm.trans now)).trans trail

/-! ## Rolling back -/

/-- Putting back what was saved changes the domains of the older variables only. -/
theorem getElem?_restore (count : Nat) (saved : List (Var × Domain)) (vars : Variables) {i : Nat}
    (older : i < count) : (saved.foldl (Variables.restore count) vars).arena[i]? = rewound saved vars.arena i := by
  induction saved generalizing vars with
  | nil => exact (rewound_nil _ _).symm
  | cons entry rest ih =>
      rw [List.foldl_cons, ih, rewound, rewound, Variables.restore]
      by_cases here : entry.1.index = i
      · rw [here, if_pos older, Variables.setDomain, here, Array.getElem?_modify, if_pos rfl, Option.map_map]
        simp [oldest, here, Function.comp_def]
      · have kept : (if entry.1.index < count then vars.setDomain entry.1 entry.2 else vars).arena[i]? =
            vars.arena[i]? := by
          split_ifs
          · rw [Variables.setDomain, Array.getElem?_modify, if_neg here]
          · rfl
        rw [kept]
        simp [oldest, here]

theorem restore_frame (count : Nat) (saved : List (Var × Domain)) (vars : Variables) :
    ∃ arena, saved.foldl (Variables.restore count) vars = { vars with arena } ∧
      arena.map Variable.name = vars.arena.map Variable.name := by
  induction saved generalizing vars with
  | nil => exact ⟨vars.arena, rfl, rfl⟩
  | cons entry rest ih =>
      obtain ⟨arena, same, named⟩ := ih (vars.restore count entry)
      refine ⟨arena, ?_, named.trans ?_⟩
      · rw [List.foldl_cons, same, Variables.restore]
        split_ifs <;> rfl
      · rw [Variables.restore]
        split_ifs
        · exact Variables.map_name_setDomain vars _ _
        · rfl

/-- The names of removed variables are not in use any more, and the others are as before. -/
theorem getElem?_erased (removed : List Variable) (names : Std.ExtHashMap String Var) (name : String) :
    (removed.foldl (fun names x => names.erase x.name) names)[name]? =
      if name ∈ removed.map Variable.name then none else names[name]? := by
  induction removed generalizing names with
  | nil => simp
  | cons x rest ih =>
      rw [List.foldl_cons, ih, Std.ExtHashMap.getElem?_erase]
      by_cases same : x.name = name
      · simp [same]
      · have other : ¬ name = x.name := fun here => same here.symm
        simp [same, other]

theorem getElem?_constraints (inner : first.openBatch.Within last) {position : Nat}
    (older : position < first.constraints.size) :
    last.constraints[position]? = first.constraints[position]? := by
  obtain ⟨newer, same⟩ := inner.constraints
  rw [← Array.getElem?_toList, same]
  exact (List.getElem?_append_left older).trans Array.getElem?_toList

/-- The watcher lists without the constraints posted since are those of the beginning. -/
theorem watchers_rolledBack (before : first.Consistent) (after : last.Consistent)
    (inner : first.openBatch.Within last) :
    (last.watchers.take first.vars.size).map (fun list => list.filter (· < first.constraints.size)) =
      first.watchers := by
  have more : first.vars.size ≤ last.watchers.size := after.watched ▸ inner.more
  refine Array.ext (by simp [before.watched, more]) fun i small inside => ?_
  have here := Array.getElem?_eq_getElem inside
  have there := Array.getElem?_eq_getElem (inside.trans_le (before.watched ▸ more))
  rw [Array.getElem_map]
  simp only [Array.take_eq_extract, Array.getElem_extract, Nat.zero_add]
  refine List.Pairwise.eq_of_mem_iff ((after.increasing _ (Array.mem_of_getElem? there)).filter _)
    (before.increasing _ (Array.mem_of_getElem? here)) fun position => ?_
  rw [List.mem_filter, decide_eq_true_iff, after.watches ⟨i⟩ _ there, before.watches ⟨i⟩ _ here]
  constructor
  · rintro ⟨posted, older⟩
    rwa [← getElem?_constraints inner older]
  · rintro ⟨c, found, inScope⟩
    have older := (Array.getElem?_eq_some_iff.1 found).1
    exact ⟨⟨c, (getElem?_constraints inner older).trans found, inScope⟩, older⟩

theorem constraints_rolledBack (inner : first.openBatch.Within last) :
    last.constraints.take first.constraints.size = first.constraints := by
  obtain ⟨newer, same⟩ := inner.constraints
  apply Array.toList_inj.1
  rw [Array.take_eq_extract, Array.toList_extract, same]
  simp [Store.openBatch]

theorem take_eq_of_getElem? {α : Type} {older newer : Array α}
    (same : ∀ i < older.size, newer[i]? = older[i]?) : newer.take older.size = older := by
  refine Array.ext_getElem? fun i => ?_
  rw [Array.take_eq_extract, Array.getElem?_extract]
  split_ifs with small
  · rw [Nat.zero_add, same i (small.trans_le (min_le_left _ _))]
  · by_cases inside : i < older.size
    · have missing : newer[i]? = none := Array.getElem?_eq_none (by omega)
      rw [← same i inside, missing]
    · exact (Array.getElem?_eq_none (not_lt.1 inside)).symm

theorem Consistent.names_iff (consistent : store.Consistent) {name : String} {v : Var} :
    store.vars.names[name]? = some v ↔ (store.vars.arena.map Variable.name)[v.index]? = some name := by
  rw [consistent.names, Array.getElem?_map, Option.map_eq_some_iff]
  rfl

/-- The names of the variables that were created since are free again, and no others. -/
theorem names_rolledBack (before : first.Consistent) (after : last.Consistent) {arena : Array Variable}
    (named : arena.map Variable.name = last.vars.arena.map Variable.name)
    (older : ∀ i < first.vars.size, arena[i]? = first.vars.arena[i]?) :
    (arena.toList.drop first.vars.size).foldl (fun names x => names.erase x.name) last.vars.names =
      first.vars.names := by
  refine Std.ExtHashMap.ext_getElem? fun name => Option.ext fun v => ?_
  have used : first.vars.names[name]? = some v ↔
      v.index < first.vars.size ∧ last.vars.names[name]? = some v := by
    rw [before.names_iff, after.names_iff, ← named, Array.getElem?_map, Array.getElem?_map]
    by_cases small : v.index < first.vars.size
    · simp [small, older v.index small]
    · have missing : first.vars.arena[v.index]? = none := Array.getElem?_eq_none (not_lt.1 small)
      simp [small, missing]
  have removed : name ∈ (arena.toList.drop first.vars.size).map Variable.name ↔
      ∃ i, first.vars.size ≤ i ∧ last.vars.names[name]? = some ⟨i⟩ := by
    simp only [after.names_iff, ← named, List.map_drop, List.mem_iff_getElem?, List.getElem?_drop]
    constructor
    · rintro ⟨i, there⟩
      exact ⟨first.vars.size + i, Nat.le_add_right _ _, by simpa using there⟩
    · rintro ⟨i, new, there⟩
      obtain ⟨k, rfl⟩ := Nat.exists_eq_add_of_le new
      exact ⟨k, by simpa using there⟩
  rw [getElem?_erased, used]
  by_cases found : last.vars.names[name]? = some v
  · have newer : name ∈ (arena.toList.drop first.vars.size).map Variable.name ↔
        first.vars.size ≤ v.index := by
      rw [removed, found]
      exact ⟨fun ⟨i, new, same⟩ => Option.some_inj.1 same ▸ new, fun new => ⟨v.index, new, rfl⟩⟩
    rw [found]
    simp only [newer, and_true, ← not_le]
    split_ifs with new <;> simp [new]
  · simp only [found, and_false, iff_false]
    split_ifs
    · simp
    · exact found

/-- A batch that failed leaves the store as it was when the batch began. Only the record of changes, which
    the next propagation forgets anyway, is cleared, and the log of what was posted keeps growing. -/
theorem rollback_eq (before : first.Consistent) (after : last.Consistent)
    (inner : first.openBatch.Within last) :
    last.rollback first.mark =
      { first with vars := { first.vars with changed := #[] }, posted := last.posted } := by
  obtain ⟨saved, trail, back⟩ := inner.trail
  have trail : last.vars.trail = saved ++ first.vars.trail := trail
  have newest : last.vars.trail.length - first.vars.trail.length = saved.length := by simp [trail]
  have taken : last.vars.trail.take saved.length = saved := by simp [trail]
  have left : last.vars.trail.drop saved.length = first.vars.trail := by simp [trail]
  obtain ⟨arena, restored, named⟩ :=
    restore_frame first.vars.size saved { last.vars with depth := last.vars.depth - 1 }
  have older : ∀ i < first.vars.size, arena[i]? = first.vars.arena[i]? := fun i small => by
    have put := getElem?_restore first.vars.size saved { last.vars with depth := last.vars.depth - 1 } small
    rw [restored] at put
    exact put.trans (back (Nat.succ_pos _) i small)
  have vars : Variables.rollback { last.vars with depth := last.vars.depth - 1 } first.vars.size
      first.vars.trail.length = { first.vars with changed := #[] } := by
    simp only [Variables.rollback, newest, taken, left, restored, names_rolledBack before after named older]
    rw [show arena.take first.vars.size = first.vars.arena from take_eq_of_getElem? older, inner.ratio]
    simp only [inner.depth]
    rfl
  have parts : last.rollback first.mark = { last with
      vars := Variables.rollback { last.vars with depth := last.vars.depth - 1 } first.vars.size
        first.vars.trail.length
      constraints := last.constraints.take first.constraints.size
      watchers := (last.watchers.take first.vars.size).map fun list =>
        list.filter (· < first.constraints.size) } := rfl
  rw [parts, vars, constraints_rolledBack inner, watchers_rolledBack before after inner, inner.config]
  rfl

end Store

end StatBounds
