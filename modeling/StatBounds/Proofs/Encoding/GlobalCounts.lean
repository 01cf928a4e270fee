import StatBounds.Proofs.Encoding.Histograms
import StatBounds.Proofs.Propagation.SettledCounts

/-! # Histograms against bin counts

A histogram by indicators says the same as bin counts, but it sees less at a time. Whatever value bin counts leave is
part of a feasible assignment, which is a solution of the histogram as long as the counts have no gaps and the bins are
disjoint. So the histogram leaves the value too, and it does not fail where bin counts do not.
-/

namespace StatBounds

open Binary64 (value ofInt)

variable {σ : Assignment} {kind : SeriesKind} {name : String} {series counts : List Var} {bins : List Bin}
  {store encoded posted narrowed : Store} {batches : List Store} {placed : List Nat}

/-- A variable over 64-bit integers. -/
def Variables.IsInteger (vars : Variables) (v : Var) : Prop :=
  ∃ x s, vars.get? v = some x ∧ x.domain = .finite s ∧ ∀ n ∈ s.values, ∃ m : Int64, m.toInt = n

/-- With two integers a variable has all those between them. -/
def Variables.GapFree (vars : Variables) (v : Var) : Prop :=
  ∀ least n greatest, vars.CanBe v least → vars.CanBe v greatest → least ≤ n → n ≤ greatest → vars.CanBe v n

theorem Variables.gapFree_range {vars : Variables} {v : Var} {x : Variable} {lo hi : Int} (found : vars.get? v = some x)
    (domain : x.domain = .finite (.range lo hi)) : vars.GapFree v := by
  simp only [GapFree, canBe_range_iff found domain]
  omega

theorem countP_eq_of_forall₂ {α β : Type} {p : α → Bool} {q : β → Bool} {as : List α} {bs : List β}
    (same : List.Forall₂ (fun a b => p a = q b) as bs) : as.countP p = bs.countP q := by
  induction same with
  | nil => rfl
  | cons head tail ih => rw [List.countP_cons, List.countP_cons, head, ih]

theorem exists_tallied (sorted : bins.Pairwise fun a b => value a.ub ≤ value b.lb) (distinct : (series ++ counts).Nodup)
    (length : placed.length = series.length) (few : series.length < 2 ^ 53) (choose : Nat → Choice)
    (inBins : ∀ i < series.length, ∃ (b : Nat) (bin : Bin),
      placed[i]? = some b ∧ bins[b]? = some bin ∧ bin.Has (choose i).reading) :
    ∃ σ : Assignment, (∀ (i : Nat) v, series[i]? = some v → σ v = choose i) ∧
      (∀ (b : Nat) v, counts[b]? = some v → σ v = .int (Int64.ofInt (placed.count b))) ∧
        Tallied series bins counts σ := by
  classical
  let given (k : Nat) : Choice :=
    if k < series.length then choose k else .int (Int64.ofInt (placed.count (k - series.length)))
  obtain ⟨σ, -, each⟩ := Assignment.exists_suits (σ := fun _ => .int 0) (p := fun k c => c = given k) distinct
    fun k v found => ⟨given k, rfl⟩
  have items (i : Nat) (v : Var) (item : series[i]? = some v) : σ v = choose i := by
    have inside := (List.getElem?_eq_some_iff.1 item).1
    rw [each i v (by rw [List.getElem?_append_left inside, item])]
    exact if_pos inside
  have totals (b : Nat) (v : Var) (there : counts[b]? = some v) : σ v = .int (Int64.ofInt (placed.count b)) := by
    rw [each (series.length + b) v (by rw [List.getElem?_append_right (by omega), Nat.add_sub_cancel_left, there])]
    refine (if_neg (by omega)).trans ?_
    rw [Nat.add_sub_cancel_left]
  refine ⟨σ, items, totals, fun v member => (Bin.inOne_iff sorted).2 ?_, fun b bin count found there => ?_⟩
  · obtain ⟨i, item⟩ := List.mem_iff_getElem?.1 member
    obtain ⟨b, bin, -, found, has⟩ := inBins i (List.getElem?_eq_some_iff.1 item).1
    exact ⟨bin, List.mem_of_getElem? found, items i v item ▸ has⟩
  · have most : placed.count b ≤ series.length := List.count_le_length.trans_eq length
    have ⟨_, reading⟩ := Choice.reading_ofInt (n := placed.count b) (by rw [Nat.abs_cast]; norm_cast; omega)
    rw [totals b count there, reading, Int.cast_natCast, List.count]
    refine congrArg Nat.cast (countP_eq_of_forall₂ (List.forall₂_iff_get.2 ⟨length, fun i small inside => ?_⟩))
    obtain ⟨b', bin', here, found', has⟩ := inBins i inside
    have item := List.getElem?_eq_getElem inside
    obtain rfl : placed[i] = b' := Option.some.inj ((List.getElem?_eq_getElem small).symm.trans here)
    rw [List.get_eq_getElem, List.get_eq_getElem, items i _ item]
    by_cases equal : placed[i] = b
    · subst equal
      obtain rfl := Option.some.inj (found.symm.trans found')
      simpa using has
    · have out : ¬ bin.Has (choose i).reading := fun also => equal (Bin.index_unique sorted found' found has also)
      simp [equal, out]

namespace Store

theorem ok_of_probe {α : Type} {operation : NarrowM α} {after : Store} (ran : probe operation store = .ok () after) :
    ∃ a vars, operation store.vars = .ok a vars := by
  cases outcome : operation store.vars with
  | ok a vars => exact ⟨a, vars, rfl⟩
  | error failure vars =>
      simp only [probe, Bind.bind, EStateM.bind, get, getThe, MonadStateOf.get, EStateM.get, outcome] at ran
      cases ran

/-- Bin counts are posted only where the filter succeeds. -/
theorem filtered_of_postBinCount (ran : postBinCount series bins counts store = .ok () posted) :
    ∃ out after, BinCount.filtered { filter := { bins }, items := series, counts } store.vars = .ok out after := by
  rcases ofBins_cases bins with ⟨e, made⟩ | made
  · rw [postBinCount, made] at ran
    cases ran
  · simp only [postBinCount, made, orFail, pure_bind] at ran
    split_ifs at ran with other
    · cases ran
    · obtain ⟨_, -, rest⟩ := (Checks.checkVars series).peel ran
      obtain ⟨_, -, rest⟩ := (Checks.checkVars counts).peel rest
      obtain ⟨_, -, rest⟩ := (Checks.forM fun v _ => Checks.checkCount v).peel rest
      obtain ⟨_, probed, -⟩ := (Checks.probe _).peel rest
      exact ok_of_probe probed

/-- Bin counts are posted only where all items and counts have values. -/
theorem hasValues_of_postBinCount (proper : ∀ bin ∈ bins, bin.Proper) (few : series.length < 2 ^ 53) (items : ∀ v ∈ series, store.vars.IsInteger v)
    (ran : postBinCount series bins counts store = .ok () posted) : ∀ v ∈ series ++ counts, store.vars.HasValues v := by
  obtain ⟨out, after, filtered⟩ := filtered_of_postBinCount ran
  have told : Ensures (BinCount.filtered { filter := { bins }, items := series, counts }) store.vars _ _ :=
    BinCount.ensures_filtered
  rw [Ensures, filtered] at told
  obtain ⟨-, domains, ranges, reads, succeeds⟩ := told
  obtain ⟨-, placed, feasible⟩ :=
    BinCountFilter.exact_of_filter (reads.items.length_eq ▸ few.trans (by norm_num)) succeeds
  intro v member
  rcases List.mem_append.1 member with item | total
  · obtain ⟨i, found⟩ := List.mem_iff_getElem?.1 item
    obtain ⟨_, _, _, -, -, canBe, -⟩ := reads.exists_canBe feasible proper (fun w x member found => by
      obtain ⟨y, s, found', domain, -⟩ := items w member
      rw [Option.some.inj (found.symm.trans found'), domain]
      rfl) found
    exact canBe.hasValues
  · obtain ⟨b, there⟩ := List.mem_iff_getElem?.1 total
    obtain ⟨_, _, canBe, -⟩ := reads.between feasible few there
    exact canBe.hasValues

def Suits (vars : Variables) (bins : List Bin) (placed : List Nat) (i : Nat) (v : Var) (m : Int64) : Prop :=
  vars.CanBe v m.toInt ∧ ∃ (b : Nat) (bin : Bin),
    placed[i]? = some b ∧ bins[b]? = some bin ∧ bin.contains (ofInt m.toInt) = true

/-- If each item has a value in the bin that it is put in, and the counts can be the numbers of items in the bins, then
    the propagation of a histogram does not fail, and leaves all of these. -/
theorem leaves_placed (proper : ∀ bin ∈ bins, bin.Proper) (none : store.constraints = #[]) (distinct : (series ++ counts).Nodup)
    (few : series.length < 2 ^ 53) (has : ∀ v ∈ series ++ counts, store.vars.HasValues v)
    (ran : encodeHistogram kind name series bins counts store = .ok () encoded) (reachable : Reachable batches encoded)
    (uncapped : encoded.propagation.ending ≠ .capped) (length : placed.length = series.length) (choose : Nat → Int64)
    (items : ∀ (i : Nat) v, series[i]? = some v → Suits store.vars bins placed i v (choose i))
    (totals : ∀ (b : Nat) v, counts[b]? = some v → store.vars.CanBe v (placed.count b)) :
    ∃ last, propagate encoded = .ok () last ∧
      (∀ (i : Nat) v, series[i]? = some v → last.vars.CanBe v (choose i).toInt) ∧
      ∀ (b : Nat) v, counts[b]? = some v → last.vars.CanBe v (placed.count b) := by
  obtain ⟨-, checked, known, known', extended⟩ := extends_encodeHistogram ran
  have encodes := encodes_encodeHistogram ran
  obtain ⟨σ, chosen, counted, tallied⟩ := exists_tallied (Bin.pairwise_of_check proper checked) distinct length few
    (fun i => .int (choose i)) fun i inside => by
      obtain ⟨-, b, bin, here, found, contains⟩ := items i _ (List.getElem?_eq_getElem inside)
      exact ⟨b, bin, here, found, Bin.contains_ofInt_iff.1 contains⟩
  have word (b : Nat) : (Int64.ofInt (placed.count b)).toInt = placed.count b := by
    have most : placed.count b ≤ series.length := List.count_le_length.trans_eq length
    exact Int64.toInt_ofInt_of_le (by omega) (by omega)
  obtain ⟨τ, same, solves⟩ := (exists_solves_histogram_iff ran).1.2 tallied
  have item {i : Nat} {v : Var} (found : series[i]? = some v) : τ v = .int (choose i) :=
    (same v (extended.contains_eq (known v (List.mem_of_getElem? found)))).trans (chosen i v found)
  have total {b : Nat} {v : Var} (there : counts[b]? = some v) : τ v = .int (Int64.ofInt (placed.count b)) :=
    (same v (extended.contains_eq (known' v (List.mem_of_getElem? there)))).trans (counted b v there)
  have allows : ∀ v ∈ series ++ counts, store.Allows v (τ v) := by
    intro v member
    rcases List.mem_append.1 member with inSeries | inCounts
    · obtain ⟨i, found⟩ := List.mem_iff_getElem?.1 inSeries
      rw [item found]
      exact allows_int_iff.2 (items i v found).1
    · obtain ⟨b, there⟩ := List.mem_iff_getElem?.1 inCounts
      rw [total there, allows_int_iff, word]
      exact totals b v there
  obtain ⟨last, propagated⟩ := encodes.exists_propagate none reachable.invariant.1 solves allows
  have left := encodes.allows_of_propagate none solves allows reachable has propagated uncapped
  refine ⟨last, propagated, fun i v found => ?_, fun b v there => ?_⟩
  · rw [← allows_int_iff, ← item found]
    exact left v (List.mem_append_left _ (List.mem_of_getElem? found))
  · have allowed := left v (List.mem_append_right _ (List.mem_of_getElem? there))
    rwa [total there, allows_int_iff, word] at allowed

/-- What a successful propagation leaves of bin counts is part of feasible assignments, and was there before. -/
theorem supports_of_postBinCount (proper : ∀ bin ∈ bins, bin.Proper) (none : store.constraints = #[]) (few : series.length < 2 ^ 53)
    (integers : ∀ v ∈ series, store.vars.IsInteger v) (reachable : Reachable batches store)
    (ran : postBinCount series bins counts store = .ok () posted) (propagated : propagate posted = .ok () narrowed)
    (uncapped : posted.propagation.ending ≠ .capped) :
    let c : BinCount := { filter := { bins }, items := series, counts }
    (∀ v ∈ series ++ counts, ∀ n, narrowed.vars.CanBe v n → store.vars.CanBe v n) ∧
      narrowed.vars.FiniteOn (· ∈ c.scope) ∧ ∃ domains ranges, c.Reads narrowed.vars domains ranges ∧
        (∃ placed, c.filter.Feasible domains ranges placed) ∧
        (∀ (i : Nat) v n, series[i]? = some v → narrowed.vars.CanBe v n →
          ∃ bin, c.filter.Gives domains ranges i bin ∧ bin.contains (ofInt n) = true) ∧
        ∀ (b : Nat) v n, counts[b]? = some v → narrowed.vars.CanBe v n →
          ∃ placed, c.filter.Feasible domains ranges placed ∧ (placed.count b : Int) = n := by
  intro c
  have has := hasValues_of_postBinCount proper few integers ran
  have reached : Reachable batches posted := .succeeded reachable (.postBinCount series bins counts) ran
  obtain rfl : posted = store.posting (.binCount c) := by
    have posts := posts_postBinCount series bins counts store
    rwa [Ensures, ran] at posts
  have only : ∀ d ∈ (store.posting (.binCount c)).constraints, d = .binCount c := by
    simp [posting, none]
  have integral : (store.posting (.binCount c)).vars.FiniteOn
      fun v => ∃ d ∈ (store.posting (.binCount c)).constraints, v ∈ d.scope := by
    rintro v x ⟨d, member, inScope⟩ found
    rw [only d member] at inScope
    obtain ⟨y, found', finite, -⟩ := has v inScope
    rwa [Option.some.inj (found.symm.trans found')]
  obtain ⟨settled, leaves⟩ := reached.invariant.1.settled_of_propagate (fun d member => only d member ▸ trivial)
    integral propagated uncapped
  obtain ⟨settled, finite⟩ := settled (.binCount c) (by simp [posting])
  exact ⟨fun v member n => (leaves v (has v member)).2 n, finite, BinCount.supports_of_settled few finite settled⟩

theorem exists_choose {c : BinCount} {vars : Variables} {domains : List Domain} {ranges : List (Nat × Nat)}
    (reads : c.Reads vars domains ranges) (feasible : c.filter.Feasible domains ranges placed)
    (proper : ∀ bin ∈ c.filter.bins, bin.Proper) (finite : vars.FiniteOn (· ∈ c.scope)) (words : ∀ v ∈ c.items, ∀ n, vars.CanBe v n → ∃ m : Int64, m.toInt = n) :
    ∃ choose : Nat → Int64, ∀ (i : Nat) v, c.items[i]? = some v → Suits vars c.filter.bins placed i v (choose i) := by
  have each (i : Nat) : ∃ m : Int64, ∀ v, c.items[i]? = some v → Suits vars c.filter.bins placed i v m := by
    cases item : c.items[i]? with
    | none => exact ⟨0, by simp⟩
    | some v =>
        obtain ⟨b, bin, n, here, found, canBe, contains⟩ := reads.exists_canBe feasible proper
          (fun w x member found => finite w x (List.mem_append_left _ member) found) item
        obtain ⟨m, rfl⟩ := words v (List.mem_of_getElem? item) n canBe
        refine ⟨m, fun w same => ?_⟩
        obtain rfl := Option.some.inj same
        exact ⟨canBe, b, bin, here, found, contains⟩
  choose choose suits using each
  exact ⟨choose, suits⟩

/-- The values of items and counts can be extended to a solution of a histogram if each item lies in one bin and each
    count is the number of items in its bin, which is what bin counts require too, and the indicators have no other
    choice then. Suppose that the lower bound of each bin comes first. Then an item that lies in a bin lies in one. And
    whatever value of an item or count the propagation of bin counts leaves is left by that of the histogram, which does
    not fail if the other one does not. -/
theorem encodeHistogram_refined (reachable : Reachable batches store)
    (ran : encodeHistogram kind name series bins counts store = .ok () encoded) :
    (∀ σ : Assignment,
      ((∃ τ, (∀ v, store.vars.contains v = encoded.vars.contains v → τ v = σ v) ∧ store.Solves encoded τ) ↔
        Tallied series bins counts σ) ∧
      (∀ τ τ', (∀ v, store.vars.contains v = encoded.vars.contains v → τ v = τ' v) →
        store.Solves encoded τ → store.Solves encoded τ' → τ = τ') ∧
      (BinCount.Holds { filter := { bins }, items := series, counts } σ ↔ Tallied series bins counts σ)) ∧
    ((∀ bin ∈ bins, bin.Proper) →
      (∀ σ : Assignment, Tallied series bins counts σ ↔
        (∀ v ∈ series, ∃ bin ∈ bins, bin.Has (σ v).reading) ∧ Counted series bins counts σ) ∧
      ∀ posted narrowed : Store, store.constraints = #[] → (series ++ counts).Nodup → series.length < 2 ^ 20 →
        (∀ v ∈ series, store.vars.IsInteger v) → (∀ v ∈ counts, store.vars.GapFree v) →
        postBinCount series bins counts store = .ok () posted → propagate posted = .ok () narrowed →
        posted.propagation.ending ≠ .capped → encoded.propagation.ending ≠ .capped →
        ∃ after, propagate encoded = .ok () after ∧
          ∀ v ∈ series ++ counts, ∀ n, narrowed.vars.CanBe v n → after.vars.CanBe v n) := by
  obtain ⟨lengths, checked, -, -, -⟩ := extends_encodeHistogram ran
  refine ⟨fun σ => ?_, fun proper => ⟨fun σ => tallied_iff_of_sorted (Bin.pairwise_of_check proper checked),
    fun posted narrowed none distinct small integers gapFree post propagated uncapped uncapped' => ?_⟩⟩
  · obtain ⟨iff, unique⟩ := exists_solves_histogram_iff (σ := σ) ran
    exact ⟨iff, unique, binCount_holds_iff lengths⟩
  have few : series.length < 2 ^ 53 := small.trans (by norm_num)
  have has := hasValues_of_postBinCount proper few integers post
  have later : Reachable batches encoded := .succeeded reachable (.encodeHistogram kind name series bins counts) ran
  obtain ⟨older, finite, domains, ranges, reads, ⟨placed, feasible⟩, items, totals⟩ :=
    supports_of_postBinCount proper none few integers reachable post propagated uncapped
  have words (v : Var) (member : v ∈ series) (n : Int) (canBe : narrowed.vars.CanBe v n) :
      ∃ m : Int64, m.toInt = n := by
    obtain ⟨x, s, found, domain, member'⟩ := older v (List.mem_append_left _ member) n canBe
    obtain ⟨y, t, found', domain', words⟩ := integers v member
    obtain rfl := Option.some.inj (found.symm.trans found')
    obtain rfl := Domain.finite.inj (domain.symm.trans domain')
    exact words n member'
  have left {placed : List Nat} (feasible : BinCountFilter.Feasible { bins } domains ranges placed)
      (choose : Nat → Int64)
      (suits : ∀ (i : Nat) v, series[i]? = some v → Suits narrowed.vars bins placed i v (choose i)) :=
    leaves_placed proper none distinct few has ran later uncapped'
      (feasible.met.length_eq.trans reads.items.length_eq.symm) choose
      (fun i v item =>
        (suits i v item).imp_left (older v (List.mem_append_left _ (List.mem_of_getElem? item)) (choose i).toInt))
      fun b v there => by
        have member := List.mem_of_getElem? there
        have old := older v (List.mem_append_right _ member)
        obtain ⟨least, greatest, low, high, above, below⟩ := reads.between feasible few there
        exact gapFree v member _ _ _ (old _ low) (old _ high) above below
  obtain ⟨chosen, suits⟩ := exists_choose reads feasible proper finite words
  obtain ⟨after, succeeds, -⟩ := left feasible chosen suits
  have same {last : Store} (ran : propagate encoded = .ok () last) : last = after := by
    rw [ran] at succeeds
    cases succeeds
    rfl
  refine ⟨after, succeeds, fun v member n canBe => ?_⟩
  rcases List.mem_append.1 member with item | total
  · obtain ⟨i, found⟩ := List.mem_iff_getElem?.1 item
    obtain ⟨bin, ⟨placed, b, feasible, here, there⟩, contains⟩ := items i v n found canBe
    obtain ⟨m, rfl⟩ := words v item n canBe
    obtain ⟨others, suits⟩ := exists_choose reads feasible proper finite words
    obtain ⟨last, ran', leftItems, -⟩ := left feasible (Function.update others i m) fun j w item' => by
      by_cases equal : j = i
      · subst equal
        obtain rfl := Option.some.inj (found.symm.trans item')
        rw [Function.update_self]
        exact ⟨canBe, b, bin, here, there, contains⟩
      · rw [Function.update_of_ne equal]
        exact suits j w item'
    have kept := leftItems i v found
    rwa [Function.update_self, same ran'] at kept
  · obtain ⟨b, there⟩ := List.mem_iff_getElem?.1 total
    obtain ⟨placed, feasible, rfl⟩ := totals b v n there canBe
    obtain ⟨chosen, suits⟩ := exists_choose reads feasible proper finite words
    obtain ⟨last, ran', -, leftTotals⟩ := left feasible chosen suits
    exact same ran' ▸ leftTotals b v there

/-- One item, half of whose values lie in the only bin. -/
theorem encodeHistogram_refined_one_item :
    let bins : List Bin := [⟨0.0, 2.0⟩]
    ∃ store encoded posted narrowed after, Reachable [] store ∧
      encodeHistogram .discrete "h" [⟨0⟩] bins [⟨1⟩] store = .ok () encoded ∧
      postBinCount [⟨0⟩] bins [⟨1⟩] store = .ok () posted ∧ propagate posted = .ok () narrowed ∧
      narrowed.vars.CanBe ⟨0⟩ 1 ∧ ¬ narrowed.vars.CanBe ⟨0⟩ 2 ∧ propagate encoded = .ok () after ∧
      ∀ v ∈ ([⟨0⟩, ⟨1⟩] : List Var), ∀ n, narrowed.vars.CanBe v n → after.vars.CanBe v n := by
  intro bins
  let store := fresh.ranging [("a", 0, 3), ("n", 0, 5)]
  have reachable : Reachable [] store :=
    reachable_ranging reachable_fresh (by decide) (by decide) (by simp [fresh, Variables.empty])
  have created : newBool (histogramName "h" 0 0) store.openBatch =
      .ok ⟨2⟩ (store.openBatch.extended (histogramName "h" 0 0) (.finite (.range 0 1))) :=
    newBool_openBatch (contains_ranging_fresh.trans (by decide))
  obtain ⟨encoded, ran, ended⟩ : Leads (encodeHistogram .discrete "h" [⟨0⟩] bins [⟨1⟩]) store ()
      fun encoded => encoded.propagation.ending = .settled := by
    refine .check rfl ?_
    rw [if_neg (by decide)]
    refine .check rfl (.check rfl (.batch ?_))
    simp only [List.zipIdx, List.mapM_cons, List.mapM_nil, newHistogramRow, newIndicator, pure_bind, bind_assoc, bins]
    refine .bind created (leads_of_passes ?_)
    decide +kernel
  obtain ⟨posted, post, ended', left⟩ : Leads (postBinCount [⟨0⟩] bins [⟨1⟩]) store ()
      fun posted => posted.propagation.ending = .settled ∧
        (posted.propagation.vars.get? ⟨0⟩).map Variable.domain = some (.finite (.range 0 1)) := by
    refine leads_of_passes ?_
    decide +kernel
  have integers : ∀ v ∈ ([⟨0⟩] : List Var), store.vars.IsInteger v := by
    intro v member
    obtain rfl := List.mem_singleton.1 member
    refine ⟨_, _, rfl, rfl, fun n inRange => ⟨Int64.ofInt n, ?_⟩⟩
    have between := IntSet.mem_range.1 inRange
    exact Int64.toInt_ofInt_of_le (by omega) (by omega)
  have gapFree : ∀ v ∈ ([⟨1⟩] : List Var), store.vars.GapFree v := by
    intro v member
    obtain rfl := List.mem_singleton.1 member
    exact Variables.gapFree_range rfl rfl
  obtain ⟨x, found, domain⟩ := Option.map_eq_some_iff.1 left
  have proper : ∀ bin ∈ bins, bin.Proper := by decide +kernel
  obtain ⟨after, propagated, leaves⟩ := ((encodeHistogram_refined reachable ran).2 proper).2 posted
    posted.afterPropagation rfl (by decide) (by decide) integers gapFree post (propagate_of_settled ended')
    (uncapped_of_settled ended') (uncapped_of_settled ended)
  exact ⟨store, encoded, posted, _, after, reachable, ran, post, propagate_of_settled ended',
    (Variables.canBe_range_iff found domain).2 (by decide),
    fun canBe => absurd ((Variables.canBe_range_iff found domain).1 canBe) (by decide), propagated, leaves⟩

/-- A 6, which lies in the first and in the last of the crossing bins, and the numbers of items in the bins. -/
theorem encodeHistogram_excludes_counts : ∃ store encoded σ, Reachable [] store ∧
    Bin.check "encode_histogram" Bin.crossing = .ok () ∧
    encodeHistogram .discrete "h" [⟨0⟩] Bin.crossing [⟨1⟩, ⟨2⟩, ⟨3⟩] store = .ok () encoded ∧
    (∀ v ∈ [⟨0⟩, ⟨1⟩, ⟨2⟩, ⟨3⟩], store.Allows v (σ v)) ∧
    (∀ v ∈ [(⟨0⟩ : Var)], ∃ bin ∈ Bin.crossing, bin.Has (σ v).reading) ∧
    Counted [⟨0⟩] Bin.crossing [⟨1⟩, ⟨2⟩, ⟨3⟩] σ ∧
    ¬ ∃ τ, (∀ v, store.vars.contains v = encoded.vars.contains v → τ v = σ v) ∧ store.Solves encoded τ := by
  let store := fresh.ranging [("a", 6, 6), ("m", 0, 1), ("n", 0, 1), ("k", 0, 1)]
  have reachable : Reachable [] store :=
    reachable_ranging reachable_fresh (by decide) (by decide) (by simp [fresh, Variables.empty])
  have free (name : String) (unused : ([("a", 6, 6), ("m", 0, 1), ("n", 0, 1), ("k", 0, 1)] :
      List (String × Int × Int)).any (·.1 == name) = false) : store.openBatch.vars.names.contains name = false :=
    contains_ranging_fresh.trans unused
  obtain ⟨encoded, ran, -⟩ : Leads (encodeHistogram .discrete "h" [⟨0⟩] Bin.crossing [⟨1⟩, ⟨2⟩, ⟨3⟩]) store ()
      fun _ => True := by
    refine .check (orFail_eq_ok (Bin.check_crossing _)) ?_
    rw [if_neg (by decide)]
    refine .check rfl (.check rfl (.batch ?_))
    simp only [List.zipIdx, List.mapM_cons, List.mapM_nil, newHistogramRow, pure_bind, bind_assoc, Bin.crossing]
    refine .newIndicator (free _ (by decide)) rfl (by decide +kernel) (.newIndicator ?_ rfl (by decide +kernel)
      (.newIndicator ?_ rfl (by decide +kernel) ⟨_, rfl, trivial⟩))
    · exact names_contains_extended.trans (Bool.or_eq_false_iff.2 ⟨by decide, free _ (by decide)⟩)
    · refine names_contains_extended.trans (Bool.or_eq_false_iff.2 ⟨by decide, ?_⟩)
      exact names_contains_extended.trans (Bool.or_eq_false_iff.2 ⟨by decide, free _ (by decide)⟩)
  let σ : Assignment := fun v => if v = ⟨0⟩ then .int 6 else if v = ⟨2⟩ then .int 0 else .int 1
  obtain ⟨first, third⟩ := Bin.has_crossing
  have second : ¬ (⟨20.0, 2.0⟩ : Bin).Has (Choice.int 6).reading :=
    fun has => absurd (Bin.contains_ofInt_iff.2 has) (by decide +kernel)
  refine ⟨store, encoded, σ, reachable, Bin.check_crossing _, ran, ?_, ?_, ?_, ?_⟩
  · simp only [List.forall_mem_cons]
    exact ⟨⟨_, rfl, (by decide : (6 : Int64).toInt ∈ [6])⟩, ⟨_, rfl, (by decide : (1 : Int64).toInt ∈ [0, 1])⟩,
      ⟨_, rfl, (by decide : (0 : Int64).toInt ∈ [0, 1])⟩, ⟨_, rfl, (by decide : (1 : Int64).toInt ∈ [0, 1])⟩, by simp⟩
  · simp only [List.forall_mem_cons]
    exact ⟨⟨_, List.mem_cons_self, first⟩, by simp⟩
  · intro b bin count found there
    obtain _ | _ | _ | b := b
    · obtain ⟨rfl, rfl⟩ := And.intro (Option.some.inj found) (Option.some.inj there)
      simp [σ, first]
    · obtain ⟨rfl, rfl⟩ := And.intro (Option.some.inj found) (Option.some.inj there)
      simp [σ, second]
    · obtain ⟨rfl, rfl⟩ := And.intro (Option.some.inj found) (Option.some.inj there)
      simp [σ, third]
    · cases there
  · intro extension
    obtain ⟨_, -, unique⟩ := ((exists_solves_histogram_iff ran).1.1 extension).inOne ⟨0⟩ (List.mem_singleton_self _)
    exact absurd ((unique 0 ⟨_, rfl, first⟩).trans (unique 2 ⟨_, rfl, third⟩).symm) (by decide)

end Store

end StatBounds
