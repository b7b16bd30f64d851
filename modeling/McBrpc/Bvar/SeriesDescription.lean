import McBrpc.Bvar.SeriesMap
import McBrpc.Library.Execution
import McBrpc.Library.Marking

/-!
# Descriptions of metrics

A metric needs its description on one of its series.  A global map records the names whose
description has been set, before it knows whether the series will exist, and its cleaning thread
forgets the name of every series that it removes.
-/

namespace McBrpc

open Function List Marking

def MetricVariable.described (var : MetricVariable) : Bool := var.metricsDesc ≠ ""

/-- One of the variables has a description. -/
def MetricSeries.carries (series : MetricSeries) : Bool := series.vars.any MetricVariable.described

theorem underscored_ne_nil {name src : List Char} (ne : name ≠ [] ∨ src ≠ [])
    (previous : Option Char) : underscored name previous src ≠ [] := by
  induction src generalizing name previous with
  | nil => exact ne.resolve_right (not_not.mpr rfl)
  | cons char rest ih =>
    refine ih (.inl ?_) _
    have separated : (if name.getLast? = some '_' then name else name ++ ['_']) ≠ [] := by
      split
      · next last => exact fun empty => by simp [empty] at last
      · exact append_ne_nil_of_right_ne_nil _ (cons_ne_nil _ _)
    split
    · exact append_ne_nil_of_right_ne_nil _ (cons_ne_nil _ _)
    · split
      · exact append_ne_nil_of_right_ne_nil _ (cons_ne_nil _ _)
      · exact separated

theorem toUnderscoredName_ne {name : String} (ne : name ≠ "") : toUnderscoredName name ≠ "" := by
  rw [toUnderscoredName, ne_eq, String.ofList_eq_empty_iff]
  refine underscored_ne_nil (.inr ?_) none
  simpa using ne

namespace MetricVariable

theorem setMetricsLabels_spec (labels : List (String × String)) (var : MetricVariable) :
    (setMetricsLabels labels var).2.metricsDesc = var.metricsDesc ∧
      (setMetricsLabels labels var).2.metricsName = var.metricsName ∧
      (var.metricsName ≠ "" → ((setMetricsLabels labels var).1 = true ↔
        ∀ label ∈ labels, label.1 ≠ "" ∧ label.2 ≠ "")) := by
  induction labels using List.reverseRecOn with
  | nil => simp [setMetricsLabels]
  | append_singleton labels label ih =>
    obtain ⟨desc_eq, name_eq, all_iff⟩ := ih
    have last : setMetricsLabels (labels ++ [label]) var =
        ((setMetricsLabels labels var).1 &&
            (setMetricsLabel label (setMetricsLabels labels var).2).1,
          (setMetricsLabel label (setMetricsLabels labels var).2).2) := by
      simp [setMetricsLabels]
    rw [last, setMetricsLabel, name_eq]
    split
    · next empty =>
      refine ⟨desc_eq, name_eq, fun named => ?_⟩
      simp only [named, or_false] at empty
      simp only [Bool.and_false, Bool.false_eq_true, forall_mem_append, forall_mem_singleton]
      tauto
    · next full =>
      obtain ⟨key_ne, value_ne, -⟩ := not_or.mp full |>.imp_right not_or.mp
      refine ⟨desc_eq, rfl, fun named => ?_⟩
      simp only [Bool.and_true, forall_mem_append, forall_mem_singleton, all_iff named]
      exact (and_iff_left ⟨key_ne, value_ne⟩).symm

end MetricVariable

namespace SeriesMaker

open MetricVariable

variable {K : Type}

theorem described_labelled (request : SeriesRequest K) (recorded free : Bool) :
    (labelled request recorded { new with exposed := free }).described = true ↔
      recorded = false ∧ request.metricsDesc ≠ "" ∧ request.metricsName ≠ "" ∧ free = true := by
  have labels (var : MetricVariable) := (setMetricsLabels_spec request.labels var).1
  rw [labelled, described, labels, setMetricsName]
  by_cases taken : request.metricsName = "" ∨ free = false
  · rw [if_pos taken]
    cases recorded with
    | true => simp [new]
    | false =>
      rcases taken with unnamed | busy
      · simp [setMetricsDesc, new, unnamed]
      · simp [setMetricsDesc, new, busy]
  · rw [if_neg taken]
    have named := toUnderscoredName_ne (not_or.mp taken).1
    cases recorded with
    | true => simp [new]
    | false =>
      simp only [Bool.false_eq_true, if_false, setMetricsDesc, named, or_false]
      split
      · next empty => simp [empty, new]
      · next full => simp_all

theorem labelledTwice_spec (request : SeriesRequest K) {annotated : MetricVariable}
    (named : annotated.metricsName ≠ "") :
    ((labelledTwice request annotated).1.isSome ↔
        ∀ label ∈ request.labels, label.1 ≠ "" ∧ label.2 ≠ "") ∧
      ∀ vars, (labelledTwice request annotated).1 = some vars →
        vars.any described = annotated.described := by
  have first := setMetricsLabels_spec request.fixedLabels annotated
  rw [labelledTwice, SeriesRequest.labels, forall_mem_append]
  split
  · next failed =>
    rw [failed] at first
    have broken := (first.2.2 named).not.mp Bool.false_ne_true
    exact ⟨iff_of_false Bool.false_ne_true fun all => broken all.1, fun vars made => nomatch made⟩
  · next fixed set =>
    rw [set] at first
    have second := setMetricsLabels_spec request.unfixedLabels fixed
    have both := (first.2.2 named).mp rfl
    rw [first.2.1] at second
    split
    · next failed =>
      rw [failed] at second
      have broken := (second.2.2 named).not.mp Bool.false_ne_true
      exact ⟨iff_of_false Bool.false_ne_true fun all => broken all.2,
        fun vars made => nomatch made⟩
    · next all labelled =>
      rw [labelled] at second
      refine ⟨iff_of_true rfl ⟨both, (second.2.2 named).mp rfl⟩, ?_⟩
      rintro _ ⟨⟩
      have desc_eq : all.metricsDesc = annotated.metricsDesc := second.1.trans first.1
      simp [described, desc_eq]

theorem setSummaryVar_spec (metricsName metricsDesc : String) (labels : List (String × String))
    (free : Bool) :
    ((setSummaryVar metricsName metricsDesc labels free).1 = true ↔
        metricsName ≠ "" ∧ free = true) ∧
      ((setSummaryVar metricsName metricsDesc labels free).2.described = true ↔
        metricsDesc ≠ "" ∧ metricsName ≠ "" ∧ free = true) := by
  have keeps (var : MetricVariable) := (setMetricsLabels_spec labels var).1
  cases free with
  | false => simp [setSummaryVar, expose, described, new]
  | true =>
    by_cases unnamed : metricsName = ""
    · simp [setSummaryVar, expose, setMetricsName, described, new, unnamed]
    · have named := toUnderscoredName_ne unnamed
      by_cases empty : metricsDesc = ""
      · simp [setSummaryVar, expose, setMetricsName, described, keeps, new, unnamed, empty]
      · simp [setSummaryVar, expose, setMetricsName, setMetricsDesc, described, keeps, new, unnamed,
          empty, named]

theorem setSummaryVars_spec (metricsName metricsDesc : String) (labels : List (String × String))
    (free : Nat → Bool) (index : Nat) (suffixes : List (String × Option String)) :
    (setSummaryVars metricsName metricsDesc labels free index suffixes).2.length =
        suffixes.length ∧
      (metricsName ≠ "" →
        ((setSummaryVars metricsName metricsDesc labels free index suffixes).1 = true ↔
          ∀ place < suffixes.length, free (index + place) = true)) ∧
      ((setSummaryVars metricsName metricsDesc labels free index suffixes).2.any described = true ↔
        suffixes ≠ [] ∧ metricsDesc ≠ "" ∧ metricsName ≠ "" ∧ free index = true) := by
  induction suffixes generalizing index with
  | nil => simp [setSummaryVars]
  | cons suffix rest ih =>
    obtain ⟨length_eq, all_iff, any_iff⟩ := ih (index + 1)
    obtain ⟨set_iff, described_iff⟩ :=
      setSummaryVar_spec metricsName metricsDesc labels (free index)
    rw [setSummaryVars]
    split
    · next var failed =>
      rw [failed] at set_iff described_iff
      have unset : rest.any (fun _ => new.described) = false := by simp [new, described]
      refine ⟨by simp, fun named => ?_, ?_⟩
      · have taken : free index = false := by simpa [named] using set_iff
        simp only [Bool.false_eq_true, false_iff, not_forall]
        exact ⟨0, by simp, by simp [taken]⟩
      · simp only [any_cons, any_map, Function.comp_def, unset, Bool.or_false]
        simpa using described_iff
    · next var made =>
      rw [made] at set_iff described_iff
      obtain ⟨named, here⟩ := set_iff.mp rfl
      refine ⟨by simp [length_eq], fun _ => ?_, ?_⟩
      · rw [all_iff named, length_cons, Nat.forall_lt_succ_left]
        simp only [Nat.add_zero, here, true_and, Nat.add_assoc, Nat.add_comm 1]
      · simp only [any_cons, Bool.or_eq_true, described_iff, any_iff]
        simp only [ne_eq, reduceCtorEq, not_false_eq_true, true_and, named, here, and_true]
        tauto

theorem any_described_zipWith {label : MetricVariable → String × Option String → MetricVariable}
    (keeps : ∀ var suffix, (label var suffix).described = var.described)
    {vars : List MetricVariable} {suffixes : List (String × Option String)}
    (length_eq : vars.length = suffixes.length) :
    (zipWith label vars suffixes).any described = vars.any described := by
  induction vars generalizing suffixes with
  | nil => rfl
  | cons var vars ih =>
    obtain ⟨suffix, suffixes, rfl⟩ := exists_cons_of_length_eq_add_one length_eq.symm
    rw [zipWith_cons_cons, any_cons, any_cons, keeps, ih (Nat.succ.inj length_eq)]

theorem exposeItem_spec (metricsName metricsDesc : String) (labels : List (String × String))
    (free : Nat → Bool) :
    ((exposeItem metricsName metricsDesc labels free).1 = true ↔
        metricsName ≠ "" ∧ ∀ index < 8, free index = true) ∧
      ((exposeItem metricsName metricsDesc labels free).2.any described = true ↔
        metricsDesc ≠ "" ∧ metricsName ≠ "" ∧ free 0 = true) := by
  rw [exposeItem]
  split
  · next unnamed => simp [unnamed, latencyVars, new, described]
  · next named =>
    obtain ⟨length_eq, all_iff, any_iff⟩ :=
      setSummaryVars_spec metricsName metricsDesc labels free 0 latencyVars
    have eight : latencyVars.length = 8 := rfl
    have some_vars : latencyVars ≠ [] := cons_ne_nil _ _
    simp only [Nat.zero_add, eight] at all_iff
    split
    · next vars failed =>
      rw [failed] at all_iff any_iff
      simp only [some_vars, ne_eq, not_false_eq_true, true_and] at any_iff
      exact ⟨by simpa [named] using all_iff named, any_iff⟩
    · next vars made =>
      rw [made] at length_eq all_iff any_iff
      simp only [some_vars, ne_eq, not_false_eq_true, true_and] at any_iff
      refine ⟨by simpa [named] using all_iff named, ?_⟩
      rw [any_described_zipWith ?_ length_eq]
      · exact any_iff
      · rintro var ⟨-, _ | quantile⟩
        · rfl
        · simp only [setMetricsLabel]
          split
          · rfl
          · rfl

end SeriesMaker

namespace GlobalMap

open SeriesMaker MetricVariable

variable {K : Type}

/-- The map keeps a new series for the request, where the flag says that the name of its metric is
recorded. -/
def Admits (request : SeriesRequest K) (env : SeriesEnv) (recorded : Bool) : GlobalMap → Prop
  | metrics => env.free 0 = true
  | metricsWithCleaning => env.free 0 = true ∧ request.metricsName ≠ "" ∧
      (recorded = true ∨ request.metricsDesc ≠ "") ∧
      ∀ label ∈ request.labels, label.1 ≠ "" ∧ label.2 ≠ ""
  | latency => True
  | latencyWithCleaning => request.metricsName ≠ "" ∧ ∀ index < 8, env.free index = true

/-- The first variable of a new series gets a description. -/
def Describes (request : SeriesRequest K) (env : SeriesEnv) (recorded : Bool) : Prop :=
  recorded = false ∧ request.metricsDesc ≠ "" ∧ request.metricsName ≠ "" ∧ env.free 0 = true

theorem adderWithCleaning_spec (request : SeriesRequest K) (env : SeriesEnv) (recorded : Bool) :
    ((adderWithCleaning request env recorded).1.isSome ↔
        metricsWithCleaning.Admits request env recorded) ∧
      ∀ vars, (adderWithCleaning request env recorded).1 = some vars →
        (vars.any described = true ↔ Describes request env recorded) := by
  simp only [adderWithCleaning, expose, setMetricsName, Admits, Describes]
  cases free : env.free 0 with
  | false => exact ⟨by simp, fun vars made => by simp at made⟩
  | true =>
    by_cases unnamed : request.metricsName = ""
    · simp [unnamed]
    · have named := toUnderscoredName_ne unnamed
      simp only [unnamed, Bool.true_eq_false, or_self, if_false]
      cases recorded with
      | true =>
        obtain ⟨kept, carried⟩ := @labelledTwice_spec K request
          { new with
            exposed := true
            metricsName := toUnderscoredName request.metricsName
            metricsType := request.type } named
        refine ⟨by simpa [unnamed] using kept, fun vars made => ?_⟩
        rw [carried vars made]
        simp [described, new]
      | false =>
        by_cases empty : request.metricsDesc = ""
        · simp [setMetricsDesc, empty]
        · obtain ⟨kept, carried⟩ := @labelledTwice_spec K request
            { new with
              exposed := true
              metricsName := toUnderscoredName request.metricsName
              metricsType := request.type
              metricsDesc := request.metricsDesc } named
          simp only [setMetricsDesc, named, empty, or_self, if_false, Bool.false_eq_true]
          refine ⟨by simpa [unnamed, empty] using kept, fun vars made => ?_⟩
          rw [carried vars made]
          simp [described, unnamed, empty]

theorem make_spec (kind : GlobalMap) (request : SeriesRequest K) (env : SeriesEnv)
    (recorded : Bool) :
    ((kind.make request env recorded).1.isSome ↔ kind.Admits request env recorded) ∧
      ∀ vars, (kind.make request env recorded).1 = some vars →
        (vars.any described = true ↔ Describes request env recorded) := by
  have summary := exposeItem_spec request.metricsName
    (if recorded = true then "" else request.metricsDesc) request.labels env.free
  have desc_ne : (if recorded = true then "" else request.metricsDesc) ≠ "" ↔
      recorded = false ∧ request.metricsDesc ≠ "" := by
    cases recorded <;> simp
  cases kind with
  | metrics =>
    simp only [make, adder, expose, Admits, Describes]
    cases free : env.free 0 with
    | false => exact ⟨by simp, fun vars made => by simp at made⟩
    | true =>
      refine ⟨by simp, ?_⟩
      rintro _ ⟨⟩
      simpa using described_labelled request recorded true
  | metricsWithCleaning => exact adderWithCleaning_spec request env recorded
  | latency =>
    refine ⟨by simp [make, latencyItem, Admits], ?_⟩
    rintro vars made
    obtain rfl := Option.some.inj made
    rw [summary.2, desc_ne, Describes, and_assoc]
  | latencyWithCleaning =>
    simp only [make, latencyItemWithCleaning, Admits, Describes]
    split
    · next failed =>
      rw [failed] at summary
      exact ⟨by simpa using summary.1, fun vars made => by simp at made⟩
    · next vars made =>
      rw [made] at summary
      refine ⟨by simpa using summary.1, ?_⟩
      rintro _ ⟨⟩
      rw [summary.2, desc_ne, and_assoc]

end GlobalMap

namespace SeriesMap

variable {K : Type} [DecidableEq K]

/-- The metric of the series under a key, and whether the series carries a description. -/
def view (map : SeriesMap K) (key : K) : Option (String × Bool) :=
  (map.series.find? key).map fun series => (series.metricsName, series.carries)

/-- Each metric with a series has exactly one that carries a description. -/
def DescribedOnce (map : SeriesMap K) : Prop :=
  ∀ name, (∃ key series, map.series.find? key = some series ∧ series.metricsName = name) →
    ∃! key, ∃ series, map.series.find? key = some series ∧ series.metricsName = name ∧
      series.carries = true

/-- The variables of the series that a call adds, if it adds one. -/
def adds (zero : K) (kind : GlobalMap) (map : SeriesMap K) (request : SeriesRequest K)
    (env : SeriesEnv) : Option (List MetricVariable) :=
  if request.key = zero ∨ request.unfixedLabelsKeys.length ≠ request.unfixedLabelsVals.length ∨
      (map.series.find? request.key).isSome ∨ env.limitReached then none
  else (kind.make request env (decide (request.metricsName ∈ map.descSettingRec))).1

/-- The series under the key is idle and held by nobody but the map. -/
def Idle (timeout curTime : Int) (useCount : K → Nat) (map : KeyedMap K MetricSeries) (key : K) :
    Prop :=
  ∃ series, map.find? key = some series ∧ curTime - series.lastActiveTime > timeout ∧
    useCount key = 1

/-- The cleaning pass removes the series under the key. -/
def Removes (timeout : Int) (useCount : K → Nat) (map : SeriesMap K) (key : K) : Prop :=
  key ∈ map.expired.2 ∧ Idle timeout map.expired.1 useCount map.series key

/-- A call that adds a series describes it exactly when its metric has no series yet, and a cleaning
pass that removes the series with the description removes every series of the metric. -/
def Keeps (zero : K) (timeout : Int) (kind : GlobalMap) (map : SeriesMap K) :
    SeriesAction K → Prop
  | .get request env =>
    request.key ≠ zero → request.unfixedLabelsKeys.length = request.unfixedLabelsVals.length →
    map.series.find? request.key = none → env.limitReached = false →
    kind.Admits request env (request.metricsName ∈ map.descSettingRec) →
      (GlobalMap.Describes request env (request.metricsName ∈ map.descSettingRec) ↔
        ∀ key series, map.series.find? key = some series →
          series.metricsName ≠ request.metricsName)
  | .seek _ => True
  | .clean useCount =>
    kind.cleans = true →
      ∀ key series, map.series.find? key = some series → series.carries = true →
        Removes timeout useCount map key →
          ∀ other series', map.series.find? other = some series' →
            series'.metricsName = series.metricsName → Removes timeout useCount map other

section

variable {map : SeriesMap K} {key : K} {timeout : Int}

theorem view_eq_some_iff {name : String} {mark : Bool} : map.view key = some (name, mark) ↔
      ∃ series, map.series.find? key = some series ∧ series.metricsName = name ∧
        series.carries = mark := by
  simp [view]

theorem describedOnce_iff : DescribedOnce map ↔ Marking.OneEach map.view := by
  simp only [DescribedOnce, Marking.OneEach, view_eq_some_iff]
  refine forall_congr' fun name => imp_congr_left ?_
  constructor
  · rintro ⟨key, series, found, name_eq⟩
    exact ⟨key, series.carries, series, found, name_eq, rfl⟩
  · rintro ⟨key, -, series, found, name_eq, -⟩
    exact ⟨key, series, found, name_eq⟩

theorem view_insert (key : K) (series : MetricSeries) (descSettingRec : List String)
    (allocated : Nat) :
    view { map with
        series := map.series.insert key series
        descSettingRec := descSettingRec
        allocated := allocated } =
      update map.view key (some (series.metricsName, series.carries)) := by
  funext other
  rw [view, KeyedMap.find?_insert, update_apply]
  split
  · rfl
  · rfl

/-- A call adds its series or leaves the metrics and descriptions of all series as they are. -/
theorem view_getSeries (zero : K) (kind : GlobalMap) (request : SeriesRequest K) (env : SeriesEnv) :
    (getSeries zero kind.cleans kind.make request env map).2.view =
      match map.adds zero kind request env with
      | none => map.view
      | some vars => update map.view request.key
          (some (request.metricsName, vars.any MetricVariable.described)) := by
  rw [getSeries, adds]
  split
  · next zero_eq => simp [zero_eq]
  · next zero_ne =>
    split
    · next sizes_ne => simp [sizes_ne]
    · next sizes_eq =>
      generalize result_eq : getOrMake kind.cleans kind.make request env map = result
      have gets := gets_getOrMake kind.cleans kind.make request env map
      rw [result_eq] at gets
      cases gets with
      | found series found =>
        simp only [found, Option.isSome_some, true_or, or_true, if_true]
        split
        · have same : map.view request.key =
              some (series.metricsName, series.carries) := by
            rw [view, found]
            rfl
          rw [view_insert _ _ map.descSettingRec map.allocated]
          exact Function.update_eq_self_iff.mpr same.symm
        · rfl
      | limited missing limit => simp [limit]
      | failed missing limit made =>
        simp only [zero_ne, sizes_eq, missing, limit, made, Option.isSome_none,
          Bool.false_eq_true, or_self, if_false]
        rfl
      | added missing limit vars made =>
        simp only [zero_ne, sizes_eq, missing, limit, made, Option.isSome_none,
          Bool.false_eq_true, or_self, if_false]
        exact view_insert _ _ _ _

theorem find?_cleanKey_of_idle {curTime : Int} {useCount : K → Nat}
    (idle : Idle timeout curTime useCount map.series key) (other : K) :
    (cleanKey timeout curTime useCount map key).series.find? other =
      if other = key then none else map.series.find? other := by
  obtain ⟨series, found, late, free⟩ := idle
  simp only [cleanKey, found, late, free, and_self, if_true]
  exact KeyedMap.find?_erase _ _ _

theorem cleanKey_of_not_idle {curTime : Int} {useCount : K → Nat}
    (busy : ¬Idle timeout curTime useCount map.series key) :
    cleanKey timeout curTime useCount map key = map := by
  rw [cleanKey]
  split
  · rfl
  · next series found =>
    refine if_neg fun idle => busy ⟨series, found, idle⟩

open scoped Classical in
theorem find?_foldl_cleanKey (timeout curTime : Int) (useCount : K → Nat) (keys : List K)
    (other : K) :
    (keys.foldl (cleanKey timeout curTime useCount) map).series.find? other =
      if other ∈ keys ∧ Idle timeout curTime useCount map.series other then none
      else map.series.find? other := by
  induction keys generalizing map with
  | nil => simp
  | cons key keys ih =>
    simp only [foldl_cons, ih, mem_cons]
    by_cases idle : Idle timeout curTime useCount map.series key
    · have cleaned := find?_cleanKey_of_idle idle
      by_cases same : other = key
      · simp [cleaned, same, idle]
      · simp [Idle, cleaned, same]
    · rw [cleanKey_of_not_idle idle]
      by_cases same : other = key
      · simp [same, idle]
      · simp [same]

open scoped Classical in
theorem view_cleanExpired (timeout : Int) (useCount : K → Nat) :
    (map.cleanExpired timeout useCount).view =
      fun key => if Removes timeout useCount map key then none else map.view key := by
  funext key
  rw [view, cleanExpired, find?_foldl_cleanKey, view]
  by_cases removes : Removes timeout useCount map key
  · rw [if_pos removes]
    exact congrArg _ (if_pos removes)
  · rw [if_neg removes]
    exact congrArg _ (if_neg removes)

theorem of_adds {zero : K} {kind : GlobalMap} {request : SeriesRequest K} {env : SeriesEnv}
    {vars : List MetricVariable} (adds_eq : map.adds zero kind request env = some vars) :
    request.key ≠ zero ∧ request.unfixedLabelsKeys.length = request.unfixedLabelsVals.length ∧
      map.series.find? request.key = none ∧ env.limitReached = false ∧
      (kind.make request env (decide (request.metricsName ∈ map.descSettingRec))).1 =
        some vars := by
  rw [adds] at adds_eq
  split at adds_eq
  · cases adds_eq
  · next admitted =>
    simp only [not_or, Bool.not_eq_true, Option.isSome_eq_false_iff, Option.isNone_iff_eq_none,
      not_not] at admitted
    exact ⟨admitted.1, admitted.2.1, admitted.2.2.1, admitted.2.2.2, adds_eq⟩

theorem forall_view_ne_iff {name : String} : (∀ key mark, map.view key ≠ some (name, mark)) ↔
      ∀ key series, map.series.find? key = some series → series.metricsName ≠ name := by
  simp only [ne_eq, view_eq_some_iff]
  constructor
  · intro absent key series found name_eq
    exact absent key series.carries ⟨series, found, name_eq, rfl⟩
  · rintro absent key mark ⟨series, found, name_eq, -⟩
    exact absent key series found name_eq

/-- A step keeps one description for each metric exactly when it meets its condition. -/
theorem describedOnce_step_iff {zero : K} {kind : GlobalMap} (once : DescribedOnce map)
    (action : SeriesAction K) :
    DescribedOnce (step zero timeout kind map action) ↔ Keeps zero timeout kind map action := by
  rw [describedOnce_iff] at *
  cases action with
  | get request env =>
    rw [step, view_getSeries, Keeps]
    cases adds_eq : map.adds zero kind request env with
    | none =>
      refine iff_of_true once fun key_ne sizes missing limit admits => ?_
      rw [adds, if_neg (by simp [key_ne, sizes, missing, limit])] at adds_eq
      have kept := (kind.make_spec request env _).1.mpr admits
      rw [adds_eq] at kept
      simp at kept
    | some vars =>
      obtain ⟨key_ne, sizes, missing, limit, made⟩ := of_adds adds_eq
      obtain ⟨kept, describes⟩ := kind.make_spec request env
        (decide (request.metricsName ∈ map.descSettingRec))
      have admits := kept.mp (made ▸ rfl)
      rw [oneEach_update_iff once (by rw [view, missing]; rfl), forall_view_ne_iff,
        describes vars made]
      exact ⟨fun agree _ _ _ _ _ => agree, fun keeps => keeps key_ne sizes missing limit admits⟩
  | seek curTime =>
    rw [step, Keeps]
    split
    · exact iff_of_true once trivial
    · exact iff_of_true once trivial
  | clean useCount =>
    rw [step, Keeps]
    split
    · next cleans =>
      classical
      rw [view_cleanExpired, oneEach_remove_iff once]
      simp only [cleans, forall_const, view_eq_some_iff]
      constructor
      · intro together key series found carries removes other series' found' name_eq
        exact together key series.metricsName ⟨series, found, rfl, carries⟩ removes other
          series'.carries ⟨series', found', name_eq, rfl⟩
      · rintro together key name ⟨series, found, rfl, carries⟩ removes other mark
          ⟨series', found', name_eq, -⟩
        exact together key series found carries removes other series' found' name_eq
    · next stays => exact iff_of_true once fun cleans => absurd cleans stays

theorem describedOnce_empty : DescribedOnce (empty : SeriesMap K) := by
  rintro name ⟨key, series, found, -⟩
  cases found

end

/-- In a run of a global map from the start, each metric with a series always has exactly one that
carries a description, exactly when every step meets its condition. -/
theorem everyState_describedOnce_iff (zero : K) (timeout : Int) (kind : GlobalMap)
    (actions : List (SeriesAction K)) :
    Execution.EveryState (step zero timeout kind) DescribedOnce empty actions ↔
      Execution.EveryStep (step zero timeout kind) (Keeps zero timeout kind) empty actions :=
  Execution.everyState_iff_everyStep DescribedOnce describedOnce_empty (fun _ once => once)
    (fun _ action once keeps => (describedOnce_step_iff once action).mpr keeps)
    fun _ action _ once after => (describedOnce_step_iff once action).mp after

/-- A request for a series of one metric, with one label. -/
def queueRequest (key : Nat) (value : String) : SeriesRequest Nat :=
  ⟨key, "queue_size", .gauge, "Size of a queue", [], ["name"], [value]⟩

/-- The first of two series of a metric has been idle too long when the cleaning thread comes. -/
def idleRun : List (SeriesAction Nat) :=
  [.get (queueRequest 1 "a") (calmEnv 0), .get (queueRequest 2 "b") (calmEnv 20), .seek 25,
    .clean fun _ => 1]

theorem entries_idleRun :
    ∃ series, (idleRun.foldl (step 0 10 .metricsWithCleaning) empty).series.entries =
      [⟨2, series⟩] ∧ series.metricsName = "queue_size" ∧ series.carries = false :=
  ⟨_, rfl, rfl, by decide⟩

/-- The series that carries the description is removed, and the other series of the metric stays. -/
theorem not_everyState_describedOnce :
    ¬Execution.EveryState (step 0 10 .metricsWithCleaning) DescribedOnce empty idleRun := by
  intro every
  obtain ⟨series, entries_eq, name_eq, bare⟩ := entries_idleRun
  have found_iff : ∀ key other,
      (idleRun.foldl (step 0 10 .metricsWithCleaning) empty).series.find? key = some other ↔
        key = 2 ∧ other = series := by
    intro key other
    rw [← KeyedMap.mem_entries_iff, entries_eq, mem_singleton]
    simp
  obtain ⟨key, ⟨other, found, -, carries⟩, -⟩ :=
    every.final "queue_size" ⟨2, series, (found_iff 2 series).mpr ⟨rfl, rfl⟩, name_eq⟩
  rw [((found_iff key other).mp found).2, bare] at carries
  cases carries

end SeriesMap
end McBrpc
