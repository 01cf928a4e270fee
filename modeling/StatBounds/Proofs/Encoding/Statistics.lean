import StatBounds.Proofs.Encoding.AllOrNothing
import StatBounds.Proofs.Encoding.StatisticBounds
import StatBounds.Proofs.Propagation.Frames

/-! # Statistics keep what they are statistics of

Take values for some observations and for an output such that the output is the exact statistic of the observations.
Every variable that is created on the way can take the exact value of what it stands for: its bounds enclose the value,
and all formulas hold. So the statistic is posted, and however often it is propagated, all of these values stay.
-/

namespace StatBounds

open Binary64 (IsNumber value)

/-! ## Statistics of variables -/

namespace Assignment

variable (σ : Assignment) (vs : List Var)

/-- What variables are read as. -/
noncomputable def readings : List ℝ :=
  vs.map fun v => (σ v).reading

/-- The exact mean of variables. -/
noncomputable def mean : ℝ :=
  average (readings σ vs)

/-- The exact sample variance of variables. -/
noncomputable def variance : ℝ :=
  spread (readings σ vs)

/-- The exact standard error of variables. -/
noncomputable def standardError : ℝ :=
  √(variance σ vs / vs.length)

variable {σ vs}

theorem length_readings : (readings σ vs).length = vs.length :=
  List.length_map _

theorem variance_nonneg (two : 2 ≤ vs.length) : 0 ≤ variance σ vs :=
  spread_nonneg (by rwa [length_readings])

end Assignment

/-! ## New variables with exact values -/

/-- Values for some variables of a store, and names and values for new variables. -/
structure Plan where
  base : Store
  values : Assignment
  given : Var → Prop
  fresh : List (String × ℝ)
  known : ∀ v, given v → base.vars.contains v = true
  admits : base.vars.AdmitsOn given values
  free : ∀ entry ∈ fresh, base.vars.names.contains entry.1 = false
  distinct : (fresh.map Prod.fst).Nodup

namespace Plan

variable (plan : Plan)

/-- The position of a new variable. -/
def var (k : Nat) : Var :=
  ⟨plan.base.vars.size + k⟩

noncomputable def choices : Assignment := fun v =>
  if v.index < plan.base.vars.size then plan.values v
  else .real ((plan.fresh[v.index - plan.base.vars.size]?.map Prod.snd).getD 0)

/-- A given variable, or one of the first new ones. -/
def Has (k : Nat) (v : Var) : Prop :=
  plan.given v ∨ ∃ j < k, v = plan.var j

/-- A store in which the first new variables are there, and some formulas that hold. All domains admit the values. -/
structure Done (k : Nat) (store : Store) : Prop where
  few : k ≤ plan.fresh.length
  names : store.vars.arena.toList.map Variable.name =
    plan.base.vars.arena.toList.map Variable.name ++ (plan.fresh.take k).map Prod.fst
  used : ∀ name, store.vars.names.contains name = true →
    plan.base.vars.names.contains name = true ∨ name ∈ (plan.fresh.take k).map Prod.fst
  admits : store.vars.AdmitsOn (plan.base.Near plan.given) plan.choices
  constraints : ∃ newer : List Formula,
    store.constraints.toList = plan.base.constraints.toList ++ newer.map .formula ∧
      ∀ f ∈ newer, (Constraint.formula f).IsBuiltIn ∧ f.Holds plan.choices ∧
        ∀ v ∈ f.scope, plan.base.Near plan.given v

variable {plan} {k : Nat} {store : Store} {v : Var}

theorem has_var {j : Nat} (less : j < k) : plan.Has k (plan.var j) :=
  .inr ⟨j, less, rfl⟩

theorem Has.near (has : plan.Has k v) : plan.base.Near plan.given v := by
  rcases has with given | ⟨j, -, rfl⟩
  · exact .inl given
  · exact .inr (Nat.le_add_right _ _)

theorem choices_given (given : plan.given v) : plan.choices v = plan.values v :=
  if_pos (of_decide_eq_true (plan.known v given))

theorem choices_var {name : String} {r : ℝ} (entry : plan.fresh[k]? = some (name, r)) :
    plan.choices (plan.var k) = .real r := by
  have behind : ¬ (plan.var k).index < plan.base.vars.size := not_lt.2 (Nat.le_add_right _ _)
  have offset : (plan.var k).index - plan.base.vars.size = k := Nat.add_sub_cancel_left _ _
  rw [choices, if_neg behind, offset, entry]
  rfl

theorem readings_choices {vs : List Var} (given : ∀ v ∈ vs, plan.given v) :
    plan.choices.readings vs = plan.values.readings vs :=
  List.map_congr_left fun v member => by rw [choices_given (given v member)]

namespace Done

theorem size (done : plan.Done k store) : store.vars.size = plan.base.vars.size + k := by
  have lengths := congrArg List.length done.names
  have few := done.few
  simp only [List.length_map, List.length_append, List.length_take, Array.length_toList] at lengths
  change store.vars.arena.size = plan.base.vars.arena.size + k
  omega

theorem contains (done : plan.Done k store) (has : plan.Has k v) : store.vars.contains v = true := by
  refine decide_eq_true ?_
  rw [done.size]
  rcases has with given | ⟨j, less, rfl⟩
  · have inside : v.index < plan.base.vars.size := of_decide_eq_true (plan.known v given)
    omega
  · exact Nat.add_lt_add_left less _

theorem encloses (done : plan.Done k store) (has : plan.Has k v) :
    (store.vars.bounds v).Encloses (plan.choices v).reading :=
  done.admits.encloses_bounds has.near

theorem opened : plan.Done 0 plan.base.openBatch where
  few := Nat.zero_le _
  names := by simp [Store.openBatch]
  used name used := .inl used
  admits v x near found := by
    rcases near with given | behind
    · rw [choices_given given]
      exact plan.admits v x given found
    · have inside : v.index < plan.base.vars.size := (Array.getElem?_eq_some_iff.1 found).1
      exact absurd inside (not_lt.2 behind)
  constraints := ⟨[], by simp [Store.openBatch], by simp⟩

theorem commit (done : plan.Done k store) : plan.Done k store.commit :=
  { done with }

end Done

end Plan

namespace Plan

open Store (Leads)

variable {plan : Plan} {k : Nat} {store : Store} {v : Var}

/-! ## Single steps -/

/-- The next new variable is created if its bounds enclose its value. -/
theorem leads_newReal (done : plan.Done k store) {name : String} {r : ℝ} {lo hi precision : Float}
    (entry : plan.fresh[k]? = some (name, r)) (precise : checkPrecision precision = .ok ()) (numberLo : IsNumber lo)
    (numberHi : IsNumber hi) (lower : value lo ≤ r) (upper : r ≤ value hi) :
    Leads (Store.newReal name lo hi precision) store (plan.var k) (plan.Done (k + 1)) := by
  have inside : k < plan.fresh.length := (List.getElem?_eq_some_iff.1 entry).1
  have listed : plan.fresh.take (k + 1) = plan.fresh.take k ++ [(name, r)] := by
    rw [List.take_add_one, entry]
    rfl
  have unused : store.vars.names.contains name = false := by
    rw [Bool.eq_false_iff]
    intro used
    rcases done.used name used with old | new
    · have free := plan.free _ (List.mem_of_getElem? entry)
      rw [free] at old
      cases old
    · have distinct := plan.distinct
      have whole : plan.fresh = plan.fresh.take (k + 1) ++ plan.fresh.drop (k + 1) := (List.take_append_drop _ _).symm
      rw [whole, listed, List.map_append, List.map_append] at distinct
      exact List.disjoint_of_nodup_append (List.nodup_append.1 distinct).1 new (by simp)
  have ordered : ¬ hi < lo := (Binary64.not_lt_iff numberHi numberLo).2 (lower.trans upper)
  refine ⟨store.extended name (.real { interval := .ofBounds lo hi, precision }), ?_, ?_⟩
  · rw [Store.newReal_eq precise numberLo numberHi ordered, Store.addVar_eq, if_neg (by simp [unused]), done.size]
    rfl
  · refine ⟨inside, ?_, fun other used => ?_, fun w x near found => ?_, done.constraints⟩
    · rw [listed]
      simp [Store.extended, done.names]
    · rw [listed]
      simp only [Store.extended, Std.ExtHashMap.contains_insert, Bool.or_eq_true, beq_iff_eq] at used
      rcases used with rfl | used
      · exact .inr (by simp)
      · refine (done.used other used).imp_right fun member => ?_
        rw [List.map_append]
        exact List.mem_append_left _ member
    · rw [Store.get?_extended] at found
      split_ifs at found with last
      · obtain rfl := Option.some.inj found
        have same : w = plan.var k := congrArg Var.mk (last.trans done.size)
        rw [same, choices_var entry]
        exact Interval.encloses_ofBounds (fun _ => lower) fun _ => upper
      · exact done.admits w x near found

theorem leads_postRelation (done : plan.Done k store) {lhs rhs : Expr}
    (left : ∀ v ∈ lhs.occurrences, plan.Has k v) (right : ∀ v ∈ rhs.occurrences, plan.Has k v)
    (definedL : lhs.Defined plan.choices) (definedR : rhs.Defined plan.choices)
    (same : lhs.real plan.choices = rhs.real plan.choices) :
    Leads (Store.postRelation lhs rhs) store () (plan.Done k) := by
  have has : ∀ v ∈ (lhs - rhs).occurrences, plan.Has k v :=
    fun v member => (List.mem_append.1 member).elim (left v) (right v)
  have some : (Interval.point 0.0).isEmpty = false := Interval.encloses_zero.notEmpty
  refine ⟨_, Store.postExpr_eq_ok some fun v member => done.contains (has v member), ?_⟩
  obtain ⟨newer, listed, each⟩ := done.constraints
  refine { done with constraints := ⟨newer ++ [.ofExpr (lhs - rhs) (.point 0.0)], ?_, fun f member => ?_⟩ }
  · rw [List.map_append, ← List.append_assoc, ← listed]
    exact Array.toList_push
  · rcases List.mem_append.1 member with earlier | last
    · exact each f earlier
    · obtain rfl := List.mem_singleton.1 last
      have zero : (lhs - rhs).real plan.choices = 0 := sub_eq_zero.2 same
      refine ⟨⟨_, _, rfl⟩, Formula.holds_ofExpr ⟨definedL, definedR⟩ ?_,
        fun v member => (has v (List.mem_eraseDups.1 member)).near⟩
      rw [zero]
      exact Interval.encloses_zero

theorem leads_narrow (done : plan.Done k store) (given : plan.given v) {onto : Interval}
    (encloses : onto.Encloses (plan.values v).reading) :
    Leads (discard (Store.narrow v onto)) store ⟨⟩ (plan.Done k) := by
  have known := done.contains (.inl given)
  rw [← choices_given given] at encloses
  have kept := done.admits.narrow (.inl given) encloses
  have within := (narrowsWithin_narrow rfl onto : NarrowsWithin (v = ·) (Variables.narrow v onto)) store.vars
  have plain := FailsPlainly.narrow v onto store.vars
  unfold Ensures at kept within plain
  cases ran : Variables.narrow v onto store.vars with
  | ok changed after =>
      rw [ran] at kept within
      refine ⟨{ store with vars := after }, ?_,
        { done with names := within.names_toList.trans done.names, used := within.names ▸ done.used, admits := kept }⟩
      simp [discard, Functor.discard, Functor.mapConst, EStateM.map, Store.narrow, Bind.bind, EStateM.bind,
        Store.checkVar_eq, known, Store.onVars, ran]
  | error failure after =>
      rw [ran] at kept within plain
      have reported := Failure.reported_of_plain plain (within.2 fun w same => same ▸ known)
      cases failure with
      | error e => exact absurd plain kept.2
      | fault _ => exact reported.elim

/-! ## Formulas of statistics -/

theorem defined_const {σ : Assignment} {c : Float} {n : Nat} (number : value c = ((n : ℝ) : EReal)) :
    (Expr.const c).Defined σ ∧ (Expr.const c).real σ = n :=
  ⟨⟨n, number⟩, by rw [Expr.real, number, EReal.toReal_coe]⟩

variable {vs : List Var} {target : Var}

/-- The formula of a mean holds for the exact one. -/
theorem leads_linkMean (done : plan.Done k store) (given : ∀ v ∈ vs, plan.given v) (one : 1 ≤ vs.length)
    (few : vs.length < 2 ^ 26) (has : plan.Has k target)
    (same : (plan.choices target).reading = plan.values.mean vs) :
    Leads (Store.linkMean vs target) store () (plan.Done k) := by
  obtain ⟨definedN, realN⟩ := defined_const (σ := plan.choices) (Binary64.value_ofNat (by omega : vs.length ≤ 2 ^ 53))
  have positive : (vs.length : ℝ) ≠ 0 := by exact_mod_cast (by omega : vs.length ≠ 0)
  have sum : (Store.sumOf vs).real plan.choices = (plan.values.readings vs).sum := by
    rw [Store.sumOf, Expr.real_total, List.map_map, ← readings_choices given]
    rfl
  have definedS : (Store.sumOf vs).Defined plan.choices := Expr.defined_total fun e listed => by
    obtain ⟨v, -, rfl⟩ := List.mem_map.1 listed
    trivial
  refine leads_postRelation done (fun v member => List.mem_singleton.1 member ▸ has) (fun v member => ?_) trivial
    ⟨definedS, definedN, realN ▸ positive⟩ ?_
  · rcases List.mem_append.1 member with term | constant
    · exact .inl (given v (Expr.mem_of_mem_sumOf term))
    · exact absurd constant (by simp [Expr.occurrences])
  · change (plan.choices target).reading = (Store.sumOf vs).real plan.choices / (Expr.const _).real plan.choices
    rw [same, sum, realN, Assignment.mean, average, Assignment.length_readings]

/-- The formula of a sample variance holds for the exact one around the exact mean. -/
theorem leads_linkVariance (done : plan.Done k store) (given : ∀ v ∈ vs, plan.given v) (two : 2 ≤ vs.length)
    (few : vs.length < 2 ^ 26) {mean : Var} (hasMean : plan.Has k mean) (has : plan.Has k target)
    (center : (plan.choices mean).reading = plan.values.mean vs)
    (same : (plan.choices target).reading = plan.values.variance vs) :
    Leads (Store.linkVariance vs mean target) store () (plan.Done k) := by
  obtain ⟨-, valueN⟩ := Binary64.value_ofNat_sub_one (by omega : 1 ≤ vs.length) (by omega)
  obtain ⟨definedN, realN⟩ := defined_const (σ := plan.choices) valueN
  have positive : ((vs.length - 1 : ℕ) : ℝ) ≠ 0 := by exact_mod_cast (by omega : vs.length - 1 ≠ 0)
  let squares := vs.map fun v => Expr.sqr (.var v - .var mean)
  have middle : (plan.choices mean).reading = average (plan.choices.readings vs) := by
    rw [center, readings_choices given]
    rfl
  have sum : (Expr.total squares).real plan.choices = deviation (plan.values.readings vs) := by
    rw [Expr.real_total, List.map_map, deviation, ← readings_choices given, Assignment.readings, List.map_map]
    refine congrArg List.sum (List.map_congr_left fun v _ => ?_)
    change ((plan.choices v).reading - (plan.choices mean).reading) *
      ((plan.choices v).reading - (plan.choices mean).reading) = _
    rw [middle]
    rfl
  have definedS : (Expr.total squares).Defined plan.choices := Expr.defined_total fun e listed => by
    obtain ⟨v, -, rfl⟩ := List.mem_map.1 listed
    exact ⟨trivial, trivial⟩
  refine leads_postRelation done (fun v member => List.mem_singleton.1 member ▸ has) (fun v member => ?_) trivial
    ⟨definedS, definedN, realN ▸ positive⟩ ?_
  · rcases List.mem_append.1 member with square | constant
    · obtain ⟨e, listed, occurs⟩ := Expr.exists_of_mem_total square
      obtain ⟨w, term, rfl⟩ := List.mem_map.1 listed
      rcases List.mem_append.1 occurs with left | right
      · exact .inl (List.mem_singleton.1 left ▸ given w term)
      · exact List.mem_singleton.1 right ▸ hasMean
    · exact absurd constant (by simp [Expr.occurrences])
  · change (plan.choices target).reading = (Expr.total squares).real plan.choices / (Expr.const _).real plan.choices
    rw [same, sum, realN, Assignment.variance, spread, Assignment.length_readings,
      Nat.cast_sub (by omega : 1 ≤ vs.length), Nat.cast_one]

/-- The formula of a standard error holds for the exact one of the exact variance. -/
theorem leads_linkStandardError (done : plan.Done k store) (two : 2 ≤ vs.length) (few : vs.length < 2 ^ 26)
    {variance : Var} (hasVariance : plan.Has k variance) (has : plan.Has k target)
    (spread : (plan.choices variance).reading = plan.values.variance vs)
    (same : (plan.choices target).reading = plan.values.standardError vs) :
    Leads (Store.linkStandardError vs.length variance target) store () (plan.Done k) := by
  obtain ⟨definedN, realN⟩ := defined_const (σ := plan.choices) (Binary64.value_ofNat (by omega : vs.length ≤ 2 ^ 53))
  have positive : (0 : ℝ) < vs.length := by exact_mod_cast (by omega : 0 < vs.length)
  have quotient : (Expr.var variance / .const (Binary64.ofNat vs.length)).real plan.choices =
      plan.values.variance vs / vs.length := by
    change (plan.choices variance).reading / (Expr.const _).real plan.choices = _
    rw [spread, realN]
  have nonneg := Assignment.variance_nonneg (σ := plan.values) two
  refine leads_postRelation done (fun v member => List.mem_singleton.1 member ▸ has) (fun v member => ?_) trivial
    ⟨⟨trivial, definedN, realN ▸ positive.ne'⟩, ?_⟩ ?_
  · rcases List.mem_append.1 member with given | constant
    · exact List.mem_singleton.1 given ▸ hasVariance
    · exact absurd constant (by simp [Expr.occurrences])
  · rw [quotient]
    positivity
  · change (plan.choices target).reading = √((Expr.var variance / .const _).real plan.choices)
    rw [same, quotient, Assignment.standardError]

/-! ## New statistics -/

theorem Done.encloses_hull (done : plan.Done k store) (given : ∀ v ∈ vs, plan.given v) :
    ∀ x ∈ plan.values.readings vs, (Store.observationHull vs store).Encloses ((x : ℝ) : EReal) := by
  have inside (v : Var) (member : v ∈ vs) := done.encloses (.inl (given v member))
  rw [← readings_choices given]
  intro x member
  obtain ⟨v, listed, rfl⟩ := List.mem_map.1 member
  exact Store.encloses_observationHull (fun w term => (inside w term).proper) listed (inside v listed)

/-- The bound of the sample variance is found, and it is one. -/
theorem Done.exists_varianceBound (done : plan.Done k store) (given : ∀ v ∈ vs, plan.given v) (two : 2 ≤ vs.length)
    (few : vs.length < 2 ^ 26) :
    ∃ greatest, Store.varianceBound vs store = .ok greatest store ∧ IsNumber greatest ∧
      ((plan.values.variance vs : ℝ) : EReal) ≤ value greatest :=
  Store.exists_varianceBound Assignment.length_readings two few (done.encloses_hull given)

theorem Done.discard_varianceBound (done : plan.Done k store) (given : ∀ v ∈ vs, plan.given v) (two : 2 ≤ vs.length)
    (few : vs.length < 2 ^ 26) : discard (Store.varianceBound vs) store = .ok () store := by
  obtain ⟨greatest, found, -⟩ := done.exists_varianceBound given two few
  simp [discard, Functor.discard, Functor.mapConst, EStateM.map, found]

/-- A new variable for a mean can take the exact mean. -/
theorem leads_newMean (done : plan.Done k store) (given : ∀ v ∈ vs, plan.given v) (one : 1 ≤ vs.length)
    (few : vs.length < 2 ^ 26) {name : String} {precision : Float} (precise : checkPrecision precision = .ok ())
    (entry : plan.fresh[k]? = some (name, plan.values.mean vs)) :
    Leads (Store.newMean name vs precision) store (plan.var k) (plan.Done (k + 1)) := by
  have hull : (Store.observationHull vs store).Encloses ((plan.values.mean vs : ℝ) : EReal) :=
    Interval.encloses_average (by rwa [Assignment.length_readings]) (done.encloses_hull given)
  refine .get (.andThen (leads_newReal done entry precise hull.proper.lo hull.proper.hi hull.lower hull.upper)
    fun middle done => ?_)
  refine .andThen (leads_linkMean done given one few (has_var (Nat.lt_succ_self k)) ?_) fun last done => .pure done
  rw [choices_var entry]
  rfl

/-- New variables for a variance and its mean can take the exact ones. -/
theorem leads_newVariance (done : plan.Done k store) (given : ∀ v ∈ vs, plan.given v) (two : 2 ≤ vs.length)
    (few : vs.length < 2 ^ 26) {name : String} {precision : Float} (precise : checkPrecision precision = .ok ())
    (center : plan.fresh[k]? = some (name ++ ".mean", plan.values.mean vs))
    (entry : plan.fresh[k + 1]? = some (name, plan.values.variance vs)) :
    Leads (Store.newVariance name vs precision) store (plan.var (k + 1)) (plan.Done (k + 2)) := by
  obtain ⟨greatest, found, number, bound⟩ := done.exists_varianceBound given two few
  have nonneg := Assignment.variance_nonneg (σ := plan.values) two
  refine .bind found (.andThen (leads_newMean done given (by omega) few precise center) fun middle done => ?_)
  refine .andThen (leads_newReal done entry precise Binary64.isNumber_zero number
    (Binary64.value_zero ▸ EReal.coe_nonneg.2 nonneg) bound) fun later done => ?_
  refine .andThen (leads_linkVariance done given two few (has_var (by omega : k < k + 1 + 1))
    (has_var (by omega : k + 1 < k + 1 + 1)) ?_ ?_) fun last done => .pure done
  · rw [choices_var center]
    rfl
  · rw [choices_var entry]
    rfl

/-- New variables for a standard error, its variance and its mean can take the exact ones. -/
theorem leads_newStandardError (done : plan.Done k store) (given : ∀ v ∈ vs, plan.given v) (two : 2 ≤ vs.length)
    (few : vs.length < 2 ^ 26) {name : String} {precision : Float} (precise : checkPrecision precision = .ok ())
    (center : plan.fresh[k]? = some (name ++ ".variance" ++ ".mean", plan.values.mean vs))
    (square : plan.fresh[k + 1]? = some (name ++ ".variance", plan.values.variance vs))
    (entry : plan.fresh[k + 2]? = some (name, plan.values.standardError vs)) :
    Leads (Store.newStandardError name vs precision) store (plan.var (k + 2)) (plan.Done (k + 3)) := by
  obtain ⟨greatest, found, -, bound⟩ := done.exists_varianceBound given two few
  have nonneg := Assignment.variance_nonneg (σ := plan.values) two
  obtain ⟨number, upper⟩ := le_maxStandardError (by omega : 1 ≤ vs.length) few nonneg bound
  refine .bind found (.andThen (leads_newVariance done given two few precise center square) fun middle done => ?_)
  refine .andThen (leads_newReal done entry precise Binary64.isNumber_zero number
    (Binary64.value_zero ▸ EReal.coe_nonneg.2 (Real.sqrt_nonneg _)) upper) fun later done => ?_
  refine .andThen (leads_linkStandardError done two few (has_var (by omega : k + 1 < k + 2 + 1))
    (has_var (by omega : k + 2 < k + 2 + 1)) ?_ ?_) fun last done => .pure done
  · rw [choices_var square]
    rfl
  · rw [choices_var entry]
    rfl

end Plan

/-! ## Derivations -/

/-- A statistic of observations, the name for the variables that are created on the way, and what else it depends on. -/
inductive Derivation where
  | mean (vs : List Var)
  | variance (name : String) (vs : List Var)
  | standardError (name : String) (vs : List Var)
  | tStatistic (name : String) (vs : List Var) (supposed : Var)
  | fisherRatio (name : String) (first second : List Var)

namespace Derivation

/-- Post that an output is the statistic. -/
def encode (output : Var) (precision : Float) : Derivation → StoreM Unit
  | mean vs => Store.encodeMean vs output precision
  | variance name vs => Store.encodeVariance name vs output precision
  | standardError name vs => Store.encodeStandardError name vs output precision
  | tStatistic name vs supposed => Store.encodeTStatistic name vs supposed output precision
  | fisherRatio name first second => Store.encodeFisherRatio name first second output precision

/-- The lists of observations, and the number of observations that each needs. -/
def samples : Derivation → List (List Var × Nat)
  | mean vs => [(vs, 1)]
  | variance _ vs | standardError _ vs | tStatistic _ vs _ => [(vs, 2)]
  | fisherRatio _ first second => [(first, 2), (second, 2)]

/-- The variables that the statistic depends on. -/
def given : Derivation → List Var
  | mean vs | variance _ vs | standardError _ vs => vs
  | tStatistic _ vs supposed => supposed :: vs
  | fisherRatio _ first second => first ++ second

/-- The names of the variables that are created on the way, and the exact values of what they stand for. -/
noncomputable def fresh (σ : Assignment) : Derivation → List (String × ℝ)
  | mean _ => []
  | variance name vs => [(name ++ ".mean", σ.mean vs)]
  | standardError name vs =>
      [(name ++ ".variance" ++ ".mean", σ.mean vs), (name ++ ".variance", σ.variance vs)]
  | tStatistic name vs _ =>
      [(name ++ ".sample_mean", σ.mean vs), (name ++ ".standard_error" ++ ".variance" ++ ".mean", σ.mean vs),
        (name ++ ".standard_error" ++ ".variance", σ.variance vs), (name ++ ".standard_error", σ.standardError vs)]
  | fisherRatio name first second =>
      [(name ++ ".variance_a" ++ ".mean", σ.mean first), (name ++ ".variance_a", σ.variance first),
        (name ++ ".variance_b" ++ ".mean", σ.mean second), (name ++ ".variance_b", σ.variance second)]

/-- A number is the exact statistic. The quotients are given by their products, so a divisor may be zero. -/
def Exact (σ : Assignment) (r : ℝ) : Derivation → Prop
  | mean vs => r = σ.mean vs
  | variance _ vs => r = σ.variance vs
  | standardError _ vs => r = σ.standardError vs
  | tStatistic _ vs supposed => r * σ.standardError vs = σ.mean vs - (σ supposed).reading
  | fisherRatio _ first second => 0 ≤ r ∧ r * σ.variance second = σ.variance first

/-- The observations and the output can still take their values, and the new variables the exact ones. -/
def Realized (d : Derivation) (σ : Assignment) (output : Var) (before : Nat) (vars : Variables) : Prop :=
  (∀ v ∈ output :: d.given, ∃ x, vars.get? v = some x ∧ x.domain.Admits (σ v)) ∧
    ∀ k name r, (d.fresh σ)[k]? = some (name, r) →
      ∃ x, vars.get? ⟨before + k⟩ = some x ∧ x.name = name ∧ x.domain.Admits (.real r)

theorem distinct_fresh (σ : Assignment) (d : Derivation) : ((d.fresh σ).map Prod.fst).Nodup := by
  cases d <;> simp [fresh, String.append_assoc]

end Derivation

namespace Store

variable {store : Store} {vs : List Var} {output : Var}

theorem checkObservations_eq_ok {statistic : Statistic} (enough : statistic.minObservations ≤ vs.length)
    (known : ∀ v ∈ vs, store.vars.contains v = true) : checkObservations statistic vs store = .ok () store := by
  unfold checkObservations
  rw [if_neg (not_lt.2 enough)]
  exact checkVars_eq_ok known

theorem checkOutput_eq_ok {statistic : Statistic} {x : Variable} (found : store.vars.get? output = some x)
    (real : x.domain.isFinite = false) : checkOutput statistic output store = .ok () store := by
  have known := contains_of_get? found
  simp only [checkOutput, Bind.bind, EStateM.bind, checkVar_eq, known, if_true, onVars, fetch_eq found, real]
  rfl

end Store

namespace Plan

open Store (Leads)

variable {plan : Plan} {store : Store} {vs : List Var} {output : Var} {precision : Float}

theorem leads_batch {operation : StoreM Unit} {n : Nat} (length : plan.fresh.length = n)
    (leads : ∀ before, plan.Done 0 before → Leads operation before () (plan.Done n)) :
    Leads (Store.batch operation) plan.base () (plan.Done plan.fresh.length) :=
  .batch ((leads _ .opened).mono fun _ done => length ▸ done.commit)

theorem opened_base (plan : Plan) : plan.Done 0 plan.base :=
  { Done.opened with }

section

variable (precise : checkPrecision precision = .ok ()) (given : ∀ v ∈ vs, plan.given v) (givenO : plan.given output)
  (few : vs.length < 2 ^ 26)

include precise given givenO few

theorem leads_encodeMean (real : ∀ statistic, Store.checkOutput statistic output plan.base = .ok () plan.base)
    (one : 1 ≤ vs.length) (none : plan.fresh = [])
    (exact : (plan.values output).reading = plan.values.mean vs) :
    Leads (Store.encodeMean vs output precision) plan.base () (plan.Done plan.fresh.length) := by
  refine .check (Store.orFail_eq_ok precise) (.check (Store.checkObservations_eq_ok one fun v member =>
    plan.known v (given v member)) (.check (real _) (.get (leads_batch (congrArg List.length none)
    fun before done => ?_))))
  have hull : (Store.observationHull vs plan.base).Encloses ((plan.values output).reading : EReal) := by
    rw [exact]
    exact Interval.encloses_average (by rwa [Assignment.length_readings]) (plan.opened_base.encloses_hull given)
  refine .andThen (leads_narrow done givenO hull) fun after done => ?_
  exact leads_linkMean done given one few (.inl givenO) (by rw [choices_given givenO, exact])

theorem leads_encodeVariance (real : ∀ statistic, Store.checkOutput statistic output plan.base = .ok () plan.base)
    (two : 2 ≤ vs.length) {name : String} (fresh : plan.fresh = [(name ++ ".mean", plan.values.mean vs)])
    (exact : (plan.values output).reading = plan.values.variance vs) :
    Leads (Store.encodeVariance name vs output precision) plan.base () (plan.Done plan.fresh.length) := by
  obtain ⟨greatest, found, number, bound⟩ := plan.opened_base.exists_varianceBound given two few
  refine .check (Store.orFail_eq_ok precise) (.check (Store.checkObservations_eq_ok two fun v member =>
    plan.known v (given v member)) (.check (real _) (.bind found (leads_batch (congrArg List.length fresh)
    fun before done => ?_))))
  have nonneg := Assignment.variance_nonneg (σ := plan.values) two
  have range : (Interval.ofBounds 0.0 greatest).Encloses ((plan.values output).reading : EReal) := by
    rw [exact]
    exact Interval.encloses_ofBounds (fun _ => Binary64.value_zero ▸ EReal.coe_nonneg.2 nonneg) fun _ => bound
  have center : plan.fresh[0]? = some (name ++ ".mean", plan.values.mean vs) := by rw [fresh]; rfl
  refine .andThen (leads_narrow done givenO range) fun after done => ?_
  refine .andThen (leads_newMean done given (by omega) few precise center) fun later done => ?_
  refine leads_linkVariance done given two few (has_var Nat.zero_lt_one) (.inl givenO) ?_ ?_
  · rw [choices_var center]
    rfl
  · rw [choices_given givenO, exact]

theorem leads_encodeStandardError
    (real : ∀ statistic, Store.checkOutput statistic output plan.base = .ok () plan.base) (two : 2 ≤ vs.length)
    {name : String} (fresh : plan.fresh =
      [(name ++ ".variance" ++ ".mean", plan.values.mean vs), (name ++ ".variance", plan.values.variance vs)])
    (exact : (plan.values output).reading = plan.values.standardError vs) :
    Leads (Store.encodeStandardError name vs output precision) plan.base () (plan.Done plan.fresh.length) := by
  obtain ⟨greatest, found, -, bound⟩ := plan.opened_base.exists_varianceBound given two few
  refine .check (Store.orFail_eq_ok precise) (.check (Store.checkObservations_eq_ok two fun v member =>
    plan.known v (given v member)) (.check (real _) (.bind found (leads_batch (congrArg List.length fresh)
    fun before done => ?_))))
  have nonneg := Assignment.variance_nonneg (σ := plan.values) two
  obtain ⟨-, upper⟩ := le_maxStandardError (by omega : 1 ≤ vs.length) few nonneg bound
  have range : (Interval.ofBounds 0.0 (maxStandardError vs.length greatest)).Encloses
      ((plan.values output).reading : EReal) := by
    rw [exact]
    exact Interval.encloses_ofBounds (fun _ => Binary64.value_zero ▸ EReal.coe_nonneg.2 (Real.sqrt_nonneg _))
      fun _ => upper
  have center : plan.fresh[0]? = some (name ++ ".variance" ++ ".mean", plan.values.mean vs) := by rw [fresh]; rfl
  have square : plan.fresh[1]? = some (name ++ ".variance", plan.values.variance vs) := by rw [fresh]; rfl
  refine .andThen (leads_narrow done givenO range) fun after done => ?_
  refine .andThen (leads_newVariance done given two few precise center square) fun later done => ?_
  refine leads_linkStandardError done two few (has_var (by omega : 1 < 2)) (.inl givenO) ?_ ?_
  · rw [choices_var square]
    rfl
  · rw [choices_given givenO, exact]

theorem leads_encodeTStatistic
    (real : ∀ statistic, Store.checkOutput statistic output plan.base = .ok () plan.base) (two : 2 ≤ vs.length)
    {supposed : Var} (givenS : plan.given supposed) {name : String} (fresh : plan.fresh =
      [(name ++ ".sample_mean", plan.values.mean vs),
        (name ++ ".standard_error" ++ ".variance" ++ ".mean", plan.values.mean vs),
        (name ++ ".standard_error" ++ ".variance", plan.values.variance vs),
        (name ++ ".standard_error", plan.values.standardError vs)])
    (exact : (plan.values output).reading * plan.values.standardError vs =
      plan.values.mean vs - (plan.values supposed).reading) :
    Leads (Store.encodeTStatistic name vs supposed output precision) plan.base () (plan.Done plan.fresh.length) := by
  have looked := plan.opened_base.discard_varianceBound given two few
  refine .check (Store.orFail_eq_ok precise) (.check (Store.checkObservations_eq_ok two fun v member =>
    plan.known v (given v member)) (.check ?_ (.check (real _) (.check looked
    (leads_batch (congrArg List.length fresh) fun before done => ?_)))))
  · rw [Store.checkVar_eq, if_pos (plan.known supposed givenS)]
  have center : plan.fresh[0]? = some (name ++ ".sample_mean", plan.values.mean vs) := by rw [fresh]; rfl
  have error : plan.fresh[3]? = some (name ++ ".standard_error", plan.values.standardError vs) := by rw [fresh]; rfl
  refine .andThen (leads_newMean done given (by omega) few precise center) fun after done => ?_
  refine .andThen (leads_newStandardError done given two few precise (by rw [fresh]; rfl) (by rw [fresh]; rfl) error)
    fun later done => ?_
  refine leads_postRelation done (fun v member => ?_) (fun v member => ?_) ⟨trivial, trivial⟩ ⟨trivial, trivial⟩ ?_
  · rcases List.mem_append.1 member with left | right
    · exact .inl (List.mem_singleton.1 left ▸ givenO)
    · exact List.mem_singleton.1 right ▸ has_var (by omega : 3 < 4)
  · rcases List.mem_append.1 member with left | right
    · exact List.mem_singleton.1 left ▸ has_var (by omega : 0 < 4)
    · exact .inl (List.mem_singleton.1 right ▸ givenS)
  · change (plan.choices output).reading * (plan.choices (plan.var 3)).reading =
      (plan.choices (plan.var 0)).reading - (plan.choices supposed).reading
    rw [choices_given givenO, choices_given givenS, choices_var center, choices_var error]
    exact exact

end

theorem leads_encodeFisherRatio {first second : List Var} (precise : checkPrecision precision = .ok ())
    (givenA : ∀ v ∈ first, plan.given v) (givenB : ∀ v ∈ second, plan.given v) (givenO : plan.given output)
    (fewA : first.length < 2 ^ 26) (fewB : second.length < 2 ^ 26)
    (real : ∀ statistic, Store.checkOutput statistic output plan.base = .ok () plan.base) (twoA : 2 ≤ first.length)
    (twoB : 2 ≤ second.length) {name : String} (fresh : plan.fresh =
      [(name ++ ".variance_a" ++ ".mean", plan.values.mean first), (name ++ ".variance_a", plan.values.variance first),
        (name ++ ".variance_b" ++ ".mean", plan.values.mean second),
        (name ++ ".variance_b", plan.values.variance second)])
    (nonneg : 0 ≤ (plan.values output).reading)
    (exact : (plan.values output).reading * plan.values.variance second = plan.values.variance first) :
    Leads (Store.encodeFisherRatio name first second output precision) plan.base ()
      (plan.Done plan.fresh.length) := by
  have lookedA := plan.opened_base.discard_varianceBound givenA twoA fewA
  have lookedB := plan.opened_base.discard_varianceBound givenB twoB fewB
  refine .check (Store.orFail_eq_ok precise) (.check (Store.checkObservations_eq_ok twoA fun v member =>
    plan.known v (givenA v member)) (.check (Store.checkObservations_eq_ok twoB fun v member =>
    plan.known v (givenB v member)) (.check (real _) (.check lookedA (.check lookedB
    (leads_batch (congrArg List.length fresh) fun before done => ?_))))))
  have range : Interval.nonNegative.Encloses ((plan.values output).reading : EReal) :=
    ⟨Interval.proper_nonNegative, by simpa [Interval.nonNegative] using nonneg, by simp [Interval.nonNegative]⟩
  have entryA : plan.fresh[1]? = some (name ++ ".variance_a", plan.values.variance first) := by rw [fresh]; rfl
  have entryB : plan.fresh[3]? = some (name ++ ".variance_b", plan.values.variance second) := by rw [fresh]; rfl
  refine .andThen (leads_narrow done givenO range) fun after done => ?_
  refine .andThen (leads_newVariance done givenA twoA fewA precise (by rw [fresh]; rfl) entryA) fun later done => ?_
  refine .andThen (leads_newVariance done givenB twoB fewB precise (by rw [fresh]; rfl) entryB) fun last done => ?_
  refine leads_postRelation done (fun v member => ?_) (fun v member => ?_) ⟨trivial, trivial⟩ trivial ?_
  · rcases List.mem_append.1 member with left | right
    · exact .inl (List.mem_singleton.1 left ▸ givenO)
    · exact List.mem_singleton.1 right ▸ has_var (by omega : 3 < 4)
  · exact List.mem_singleton.1 member ▸ has_var (by omega : 1 < 4)
  · change (plan.choices output).reading * (plan.choices (plan.var 3)).reading = (plan.choices (plan.var 1)).reading
    rw [choices_given givenO, choices_var entryA, choices_var entryB]
    exact exact

/-- Every derivation is posted, and all new variables can take their exact values. -/
theorem leads_encode (d : Derivation) (precise : checkPrecision precision = .ok ())
    (given : ∀ v ∈ d.given, plan.given v) (givenO : plan.given output)
    (sizes : ∀ sample ∈ d.samples, sample.2 ≤ sample.1.length ∧ sample.1.length < 2 ^ 26)
    (real : ∀ statistic, Store.checkOutput statistic output plan.base = .ok () plan.base)
    (fresh : plan.fresh = d.fresh plan.values) (exact : d.Exact plan.values (plan.values output).reading) :
    Leads (d.encode output precision) plan.base () (plan.Done plan.fresh.length) := by
  cases d with
  | mean vs =>
      obtain ⟨one, few⟩ := sizes (vs, 1) (by simp [Derivation.samples])
      exact leads_encodeMean precise given givenO few real one fresh exact
  | variance name vs =>
      obtain ⟨two, few⟩ := sizes (vs, 2) (by simp [Derivation.samples])
      exact leads_encodeVariance precise given givenO few real two fresh exact
  | standardError name vs =>
      obtain ⟨two, few⟩ := sizes (vs, 2) (by simp [Derivation.samples])
      exact leads_encodeStandardError precise given givenO few real two fresh exact
  | tStatistic name vs supposed =>
      obtain ⟨two, few⟩ := sizes (vs, 2) (by simp [Derivation.samples])
      obtain ⟨givenS, given⟩ := List.forall_mem_cons.1 given
      exact leads_encodeTStatistic precise given givenO few real two givenS fresh exact
  | fisherRatio name first second =>
      obtain ⟨twoA, fewA⟩ := sizes (first, 2) (by simp [Derivation.samples])
      obtain ⟨twoB, fewB⟩ := sizes (second, 2) (by simp [Derivation.samples])
      obtain ⟨givenA, givenB⟩ := List.forall_mem_append.1 given
      exact leads_encodeFisherRatio precise givenA givenB givenO fewA fewB real twoA twoB fresh exact.1 exact.2

end Plan

/-! ## Propagation -/

namespace Plan

variable {plan : Plan} {store : Store} {d : Derivation} {output : Var}

/-- What admits all choices admits the exact values of new variables. -/
theorem realized {vars : Variables} (given : ∀ v ∈ output :: d.given, plan.given v)
    (fresh : plan.fresh = d.fresh plan.values) (names : vars.arena.toList.map Variable.name =
      plan.base.vars.arena.toList.map Variable.name ++ plan.fresh.map Prod.fst)
    (admits : vars.AdmitsOn (plan.base.Near plan.given) plan.choices) :
    d.Realized plan.values output plan.base.vars.size vars := by
  have name (i : Nat) : (vars.get? ⟨i⟩).map Variable.name =
      (plan.base.vars.arena.toList.map Variable.name ++ plan.fresh.map Prod.fst)[i]? := by
    rw [← names, List.getElem?_map, Array.getElem?_toList]
    rfl
  have size : (plan.base.vars.arena.toList.map Variable.name).length = plan.base.vars.size := List.length_map _
  refine ⟨fun v member => ?_, fun k freshName r entry => ?_⟩
  · have old : v.index < plan.base.vars.size := of_decide_eq_true (plan.known v (given v member))
    have found := name v.index
    rw [List.getElem?_append_left (size ▸ old), List.getElem?_eq_getElem (size ▸ old)] at found
    obtain ⟨x, found, -⟩ := Option.map_eq_some_iff.1 found
    exact ⟨x, found, choices_given (given v member) ▸ admits v x (.inl (given v member)) found⟩
  · rw [← fresh] at entry
    have found := name (plan.base.vars.size + k)
    rw [List.getElem?_append_right (size ▸ Nat.le_add_right _ _), size, Nat.add_sub_cancel_left, List.getElem?_map,
      entry] at found
    obtain ⟨x, found, same⟩ := Option.map_eq_some_iff.1 found
    exact ⟨x, found, same, choices_var entry ▸ admits (plan.var k) x (.inr (Nat.le_add_right _ _)) found⟩

/-- In a store without other constraints, the values stay after every number of propagations. -/
theorem Done.propagated (done : plan.Done plan.fresh.length store) (consistent : store.Consistent)
    (none : plan.base.constraints = #[]) (times : Nat) :
    (store.propagated times).vars.AdmitsOn (plan.base.Near plan.given) plan.choices ∧
      ∃ last, Store.propagate (store.propagated times) = .ok () last := by
  obtain ⟨newer, listed, each⟩ := done.constraints
  have formulas (c : Constraint) (member : c ∈ store.constraints) : ∃ f ∈ newer, c = .formula f := by
    rw [← Array.mem_toList_iff, listed, none] at member
    obtain ⟨f, listed, rfl⟩ := List.mem_map.1 (by simpa using member)
    exact ⟨f, listed, rfl⟩
  have builtIn : ∀ c ∈ store.constraints, c.IsBuiltIn := by
    intro c member
    obtain ⟨f, listed, rfl⟩ := formulas c member
    exact (each f listed).1
  have keeps : ∀ c ∈ store.constraints, Keeps plan.choices c.propagate fun _ => True := by
    intro c member
    obtain ⟨f, listed, rfl⟩ := formulas c member
    exact Formula.keeps (each f listed).2.1
  have plain : ∀ c ∈ store.constraints, FailsPlainly c.propagate := by
    intro c member
    obtain ⟨f, -, rfl⟩ := formulas c member
    exact .formula f
  have concerns (v : Var) (concerns : store.Concerns v) : plan.base.Near plan.given v := by
    obtain ⟨c, member, inScope⟩ := concerns
    obtain ⟨f, listed, rfl⟩ := formulas c member
    exact (each f listed).2.2 v inScope
  have kept := (Store.propagated_keepsOn builtIn keeps concerns done.admits times).1
  have same := store.constraints_propagated times
  refine ⟨kept, (consistent.propagated_times times).exists_propagate (same ▸ builtIn) (same ▸ keeps) (same ▸ plain) ?_⟩
  intro v x ⟨c, member, inScope⟩ found
  exact kept v x (concerns v ⟨c, same ▸ member, inScope⟩) found

end Plan

/-! ## The exact statistic stays -/

theorem Derivation.procedure_encode (d : Derivation) (output : Var) (precision : Float) :
    Procedure (d.encode output precision) := by
  cases d with
  | mean vs => exact .encodeMean vs output precision
  | variance name vs => exact .encodeVariance name vs output precision
  | standardError name vs => exact .encodeStandardError name vs output precision
  | tStatistic name vs supposed => exact .encodeTStatistic name vs supposed output precision
  | fisherRatio name first second => exact .encodeFisherRatio name first second output precision

/-- A statistic is posted on a real output that can be the exact one, and the observations, the output and the new
    variables can then take the exact values. Without other constraints they still can after any number of
    propagations, which all succeed. -/
theorem Reachable.posts_statistic {batches : List Store} {store : Store} (reachable : Reachable batches store)
    (d : Derivation) (σ : Assignment) (output : Var) (precision : Float) (precise : checkPrecision precision = .ok ())
    (sizes : ∀ sample ∈ d.samples, sample.2 ≤ sample.1.length ∧ sample.1.length < 2 ^ 26)
    (admits : ∀ v ∈ output :: d.given, ∃ x, store.vars.get? v = some x ∧ x.domain.Admits (σ v))
    (real : ∀ x, store.vars.get? output = some x → x.domain.isFinite = false)
    (exact : d.Exact σ (σ output).reading)
    (free : ∀ entry ∈ d.fresh σ, store.vars.names.contains entry.1 = false) :
    ∃ after, d.encode output precision store = .ok () after ∧ d.Realized σ output store.vars.size after.vars ∧
      (store.constraints = #[] → ∀ times, d.Realized σ output store.vars.size (after.propagated times).vars ∧
        ∃ last, Store.propagate (after.propagated times) = .ok () last) := by
  let plan : Plan := {
    base := store
    values := σ
    given := (· ∈ output :: d.given)
    fresh := d.fresh σ
    known v member := by
      obtain ⟨x, found, -⟩ := admits v member
      exact contains_of_get? found
    admits v x member found := by
      obtain ⟨y, same, admitted⟩ := admits v member
      exact Option.some.inj (same.symm.trans found) ▸ admitted
    free
    distinct := d.distinct_fresh σ }
  obtain ⟨x, found, -⟩ := admits output List.mem_cons_self
  obtain ⟨after, ran, done⟩ := plan.leads_encode d precise (fun v member => List.mem_cons_of_mem _ member)
    List.mem_cons_self sizes (fun _ => Store.checkOutput_eq_ok found (real x found)) rfl exact
  have names := done.names
  rw [List.take_length] at names
  have consistent := (reachable.succeeded (d.procedure_encode output precision) ran).invariant.1
  refine ⟨after, ran, Plan.realized (fun _ => id) rfl names done.admits, fun none times => ?_⟩
  obtain ⟨kept, ends⟩ := done.propagated consistent none times
  exact ⟨Plan.realized (fun _ => id) rfl ((Store.names_propagated times).trans names) kept, ends⟩

/-- Of 1 and 3, the mean is 2 and the variance is 2, wherever else the two observations may lie. -/
theorem posts_variance_of_two : ∃ store after : Store, Reachable [] store ∧ store.constraints = #[] ∧
    Store.encodeVariance "s" [⟨0⟩, ⟨1⟩] ⟨2⟩ 0.5 store = .ok () after ∧
    ∀ times, ∃ x, (after.propagated times).vars.get? ⟨3⟩ = some x ∧ x.name = "s.mean" ∧ x.domain.Admits (.real 2) := by
  let σ : Assignment := fun v => if v = ⟨2⟩ then .real 2 else if v = ⟨1⟩ then .int 3 else .int 1
  have one : (Choice.int 1).reading = 1 := by
    rw [Choice.reading_int (by decide)]
    exact Int.cast_one
  have three : (Choice.int 3).reading = 3 := by
    rw [Choice.reading_int (by decide)]
    exact Int.cast_ofNat 3
  have readings : σ.readings [⟨0⟩, ⟨1⟩] = [1, 3] := by
    simp [Assignment.readings, σ, one, three]
  have mean : σ.mean [⟨0⟩, ⟨1⟩] = 2 := by
    rw [Assignment.mean, readings]
    norm_num [average]
  have variance : σ.variance [⟨0⟩, ⟨1⟩] = 2 := by
    rw [Assignment.variance, readings]
    norm_num [spread, deviation, average]
  have ten : value 10.0 = ((10 : ℝ) : EReal) := Binary64.value_ofNat (n := 10) (by decide)
  have output : (Interval.ofBounds 0.0 10.0).Encloses ((2 : ℝ) : EReal) := by
    refine Interval.encloses_ofBounds (fun _ => ?_) fun _ => ?_
    · rw [Binary64.value_zero, EReal.coe_nonneg]
      norm_num
    · rw [ten, EReal.coe_le_coe_iff]
      norm_num
  have admits : ∀ v ∈ [⟨2⟩, ⟨0⟩, ⟨1⟩], ∃ x, Store.sampled.vars.get? v = some x ∧ x.domain.Admits (σ v) := by
    simp only [List.forall_mem_cons]
    exact ⟨⟨_, rfl, output⟩, ⟨_, rfl, (by decide : (1 : Int) ∈ (IntSet.range 0 3).values)⟩,
      ⟨_, rfl, (by decide : (3 : Int) ∈ (IntSet.range 2 5).values)⟩, by simp⟩
  have free : Store.sampled.vars.names.contains "s.mean" = false := by
    simp [Store.sampled, Store.extended, Store.contains_ranging_fresh]
  obtain ⟨after, ran, -, stays⟩ := Store.reachable_sampled.posts_statistic (.variance "s" [⟨0⟩, ⟨1⟩]) σ ⟨2⟩ 0.5
    (by decide +kernel) (by simp [Derivation.samples]) admits
    (fun x found => by
      obtain rfl : _ = x := Option.some.inj found
      rfl)
    variance.symm (by simpa [Derivation.fresh] using free)
  refine ⟨_, after, Store.reachable_sampled, rfl, ran, fun times => ?_⟩
  obtain ⟨x, found, named, admits⟩ := (stays rfl times).1.2 0 _ _ rfl
  exact ⟨x, found, named, mean ▸ admits⟩

/-- The mean of a single integer is the integer, but an integer output is refused. -/
theorem mean_refused_on_integer : ∃ (store : Store) (σ : Assignment) (e : Error), Reachable [] store ∧
    store.constraints = #[] ∧ checkPrecision 0.5 = .ok () ∧
    (∀ v ∈ [⟨1⟩, ⟨0⟩], ∃ x, store.vars.get? v = some x ∧ x.domain.Admits (σ v)) ∧
    (Derivation.mean [⟨0⟩]).Exact σ (σ ⟨1⟩).reading ∧ Store.encodeMean [⟨0⟩] ⟨1⟩ 0.5 store = .error (.error e) store ∧
    e.kind = .argument := by
  let store := Store.fresh.ranging [("x", 1, 1), ("y", 1, 1)]
  have reachable : Reachable [] store :=
    Store.reachable_ranging Store.reachable_fresh (by decide) (by decide) (by simp [Store.fresh, Variables.empty])
  have single : (Domain.finite (.range 1 1)).Admits (.int 1) := (by decide : (1 : Int) ∈ (IntSet.range 1 1).values)
  refine ⟨store, fun _ => .int 1, .integerOutput "mean" "y", reachable, rfl, by decide +kernel, ?_, ?_, ?_, rfl⟩
  · simp only [List.forall_mem_cons]
    exact ⟨⟨_, rfl, single⟩, ⟨_, rfl, single⟩, by simp⟩
  · simp [Derivation.Exact, Assignment.mean, Assignment.readings, average]
  · rfl

end StatBounds
