import McBrpc.Bvar.Variable
import McBrpc.Library.KeyedMap

/-!
# Maps of metric series

The series of a recorder live in a map of the recorder or in a global map, with or without a thread
that removes idle series.  The maps share one search and differ in how they make a series.
-/

namespace McBrpc

/-- A series: its object, numbered within the map, the metric it was made for, its variables and its
last use. -/
structure MetricSeries where
  object : Nat
  metricsName : String
  vars : List MetricVariable
  lastActiveTime : Int

/-- A map of series with the names whose description has been set, the number of objects made, and
the time and the expired keys that the cleaning thread has read. -/
structure SeriesMap (K : Type) where
  series : KeyedMap K MetricSeries
  descSettingRec : List String
  allocated : Nat
  expired : Int × List K

/-- The arguments of `GetAdder` and `GetLatencyItem`. -/
structure SeriesRequest (K : Type) where
  key : K
  metricsName : String
  type : MetricsDataType
  metricsDesc : String
  fixedLabels : List (String × String)
  unfixedLabelsKeys : List String
  unfixedLabelsVals : List String

/-- What a call meets: whether the limit of series is reached, which of the variables can be
exposed, whether the process quits, and the time. -/
structure SeriesEnv where
  limitReached : Bool
  free : Nat → Bool
  quitting : Bool
  now : Int

namespace SeriesRequest

variable {K : Type}

def unfixedLabels (request : SeriesRequest K) : List (String × String) :=
  request.unfixedLabelsKeys.zip request.unfixedLabelsVals

def labels (request : SeriesRequest K) : List (String × String) :=
  request.fixedLabels ++ request.unfixedLabels

end SeriesRequest

/-- The variables of a new series, if it is made, and whether the name is recorded as described. -/
abbrev SeriesMaker (K : Type) :=
  SeriesRequest K → SeriesEnv → Bool → Option (List MetricVariable) × Bool

namespace SeriesMaker

open MetricVariable

variable {K : Type}

/-- The steps that name, describe and label an exposed adder, whatever they return. -/
def labelled (request : SeriesRequest K) (described : Bool) (var : MetricVariable) :
    MetricVariable :=
  let named := (setMetricsName request.metricsName request.type var).2
  let annotated := if described then named else (setMetricsDesc request.metricsDesc named).2
  (setMetricsLabels request.labels annotated).2

/-- `MetricsCountRecorder::find`, which ignores every failure. -/
def ownAdder : SeriesMaker K := fun request env described =>
  (some [labelled request described (expose (env.free 0) new).2], true)

/-- `GlobalMetricsMap::GetAdder`, which ignores failures after the exposure. -/
def adder : SeriesMaker K := fun request env described =>
  match expose (env.free 0) new with
  | (false, _) => (none, false)
  | (true, var) => (some [labelled request described var], true)

/-- The two loops that label the adder of a map with cleaning. -/
def labelledTwice (request : SeriesRequest K) (annotated : MetricVariable) :
    Option (List MetricVariable) × Bool :=
  match setMetricsLabels request.fixedLabels annotated with
  | (false, _) => (none, true)
  | (true, fixed) =>
    match setMetricsLabels request.unfixedLabels fixed with
    | (false, _) => (none, true)
    | (true, all) => (some [all], true)

/-- `GlobalMetricsMapWithCleaning::GetAdder`, which gives up at the first failure. -/
def adderWithCleaning : SeriesMaker K := fun request env described =>
  match expose (env.free 0) new with
  | (false, _) => (none, false)
  | (true, var) =>
    match setMetricsName request.metricsName request.type var with
    | (false, _) => (none, false)
    | (true, named) =>
      match if described then (true, named) else setMetricsDesc request.metricsDesc named with
      | (false, _) => (none, true)
      | (true, annotated) => labelledTwice request annotated

/-- The suffixes of the variables of a latency item with the quantile labels that they get. -/
def latencyVars : List (String × Option String) :=
  [("max_latency", some "1"), ("na_sum", none), ("nb_count", none), ("latency_50", some "0.5"),
    ("latency_90", some "0.9"), ("latency_95", some "0.95"), ("latency_99", some "0.99"),
    ("latency_999", some "0.999")]

/-- `SET_SUMMARY_VARS` for one variable; an empty description is not set. -/
def setSummaryVar (metricsName metricsDesc : String) (labels : List (String × String))
    (free : Bool) : Bool × MetricVariable :=
  match expose free new with
  | (false, var) => (false, var)
  | (true, var) =>
    match setMetricsName metricsName .summary var with
    | (false, named) => (false, named)
    | (true, named) =>
      match if metricsDesc = "" then (true, named) else setMetricsDesc metricsDesc named with
      | (false, annotated) => (false, annotated)
      | (true, annotated) => (true, (setMetricsLabels labels annotated).2)

/-- The variables of an item in order, up to the first one that cannot be set. -/
def setSummaryVars (metricsName metricsDesc : String) (labels : List (String × String))
    (free : Nat → Bool) : Nat → List (String × Option String) → Bool × List MetricVariable
  | _, [] => (true, [])
  | index, _ :: rest =>
    match setSummaryVar metricsName metricsDesc labels (free index) with
    | (false, var) => (false, var :: rest.map fun _ => new)
    | (true, var) =>
      let later := setSummaryVars metricsName metricsDesc labels free (index + 1) rest
      (later.1, var :: later.2)

/-- `MetricsLatencyItem::expose`. -/
def exposeItem (metricsName metricsDesc : String) (labels : List (String × String))
    (free : Nat → Bool) : Bool × List MetricVariable :=
  if metricsName = "" then (false, latencyVars.map fun _ => new)
  else
    match setSummaryVars metricsName metricsDesc labels free 0 latencyVars with
    | (false, vars) => (false, vars)
    | (true, vars) =>
      (true, List.zipWith (fun var suffix =>
          match suffix.2 with
          | none => var
          | some quantile => (setMetricsLabel ("quantile", quantile) var).2)
        vars latencyVars)

/-- `GlobalMetricsLatencyMap::GetLatencyItem` and `MetricsLatencyRecorder::find`, which keep an item
that cannot be exposed. -/
def latencyItem : SeriesMaker K := fun request env described =>
  let metricsDesc := if described then "" else request.metricsDesc
  (some (exposeItem request.metricsName metricsDesc request.labels env.free).2, true)

/-- `GlobalMetricsLatencyMapWithCleaning::GetLatencyItem`. -/
def latencyItemWithCleaning : SeriesMaker K := fun request env described =>
  let metricsDesc := if described then "" else request.metricsDesc
  match exposeItem request.metricsName metricsDesc request.labels env.free with
  | (false, _) => (none, true)
  | (true, vars) => (some vars, true)

end SeriesMaker

inductive GlobalMap where
  | metrics
  | metricsWithCleaning
  | latency
  | latencyWithCleaning
  deriving DecidableEq

namespace GlobalMap

def make {K : Type} : GlobalMap → SeriesMaker K
  | metrics => SeriesMaker.adder
  | metricsWithCleaning => SeriesMaker.adderWithCleaning
  | latency => SeriesMaker.latencyItem
  | latencyWithCleaning => SeriesMaker.latencyItemWithCleaning

/-- The map has a cleaning thread. -/
def cleans : GlobalMap → Bool
  | metrics => false
  | metricsWithCleaning => true
  | latency => false
  | latencyWithCleaning => true

end GlobalMap

/-- The steps of a global map: a call, and the two halves of a cleaning pass with the numbers of
holders of each series. -/
inductive SeriesAction (K : Type) where
  | get (request : SeriesRequest K) (env : SeriesEnv)
  | seek (curTime : Int)
  | clean (useCount : K → Nat)

namespace SeriesMap

variable {K : Type}

def empty : SeriesMap K := ⟨∅, [], 0, (0, [])⟩

variable [DecidableEq K]

/-- The series under the key of the request, or a new one; a map with cleaning notes the time. -/
def getOrMake (timed : Bool) (make : SeriesMaker K) (request : SeriesRequest K) (env : SeriesEnv)
    (map : SeriesMap K) : Option Nat × SeriesMap K :=
  match map.series.find? request.key with
  | some found =>
    (some found.object, if timed then
        { map with
          series := map.series.insert request.key { found with lastActiveTime := env.now } }
      else map)
  | none =>
    if env.limitReached then (none, map)
    else
      let described := request.metricsName ∈ map.descSettingRec
      let (made, recorded) := make request env described
      let descSettingRec :=
        if recorded then request.metricsName :: map.descSettingRec else map.descSettingRec
      match made with
      | none =>
        (none, { map with descSettingRec := descSettingRec, allocated := map.allocated + 1 })
      | some vars =>
        (some map.allocated, { map with
            series := map.series.insert request.key
              ⟨map.allocated, request.metricsName, vars, env.now⟩
            descSettingRec := descSettingRec
            allocated := map.allocated + 1 })

/-- `GetAdder` and `GetLatencyItem` of a global map. -/
def getSeries (zero : K) (timed : Bool) (make : SeriesMaker K) (request : SeriesRequest K)
    (env : SeriesEnv) (map : SeriesMap K) : Option Nat × SeriesMap K :=
  if request.key = zero then (none, map)
  else if request.unfixedLabelsKeys.length ≠ request.unfixedLabelsVals.length then (none, map)
  else getOrMake timed make request env map

/-- The first half of a cleaning pass, under the read lock. -/
def seekExpired (timeout curTime : Int) (map : SeriesMap K) : SeriesMap K :=
  { map with
    expired := (curTime, (map.series.entries.filter fun entry =>
        decide (curTime - entry.2.lastActiveTime > timeout)).map Sigma.fst) }

def cleanKey (timeout curTime : Int) (useCount : K → Nat) (map : SeriesMap K) (key : K) :
    SeriesMap K :=
  match map.series.find? key with
  | none => map
  | some found =>
    if curTime - found.lastActiveTime > timeout ∧ useCount key = 1 then
      { map with
        series := map.series.erase key
        descSettingRec := map.descSettingRec.filter (· ≠ found.metricsName) }
    else map

/-- The second half of a cleaning pass, under the write lock. -/
def cleanExpired (timeout : Int) (useCount : K → Nat) (map : SeriesMap K) : SeriesMap K :=
  map.expired.2.foldl (cleanKey timeout map.expired.1 useCount) { map with expired := (0, []) }

/-- A call in which nothing fails. -/
def calmEnv (now : Int) : SeriesEnv := ⟨false, fun _ => true, false, now⟩

/-- What a global map does, for a hash that is zero at the given key and a timeout. -/
def step (zero : K) (timeout : Int) (kind : GlobalMap) (map : SeriesMap K) :
    SeriesAction K → SeriesMap K
  | .get request env => (getSeries zero kind.cleans kind.make request env map).2
  | .seek curTime => if kind.cleans then map.seekExpired timeout curTime else map
  | .clean useCount => if kind.cleans then map.cleanExpired timeout useCount else map

/-- What `getOrMake` can do: find the series, stop at the limit, fail to make a series after the
name has possibly been recorded, or add a new one. -/
inductive Gets (timed : Bool) (make : SeriesMaker K) (request : SeriesRequest K) (env : SeriesEnv)
    (map : SeriesMap K) : Option Nat × SeriesMap K → Prop
  | found (series : MetricSeries) (found : map.series.find? request.key = some series) :
      Gets timed make request env map
        (some series.object, if timed then
            { map with
              series := map.series.insert request.key { series with lastActiveTime := env.now } }
          else map)
  | limited (missing : map.series.find? request.key = none) (limit : env.limitReached = true) :
      Gets timed make request env map (none, map)
  | failed (missing : map.series.find? request.key = none) (limit : env.limitReached = false)
      (made : (make request env (decide (request.metricsName ∈ map.descSettingRec))).1 = none)
      (descSettingRec : List String) :
      Gets timed make request env map
        (none, { map with descSettingRec := descSettingRec, allocated := map.allocated + 1 })
  | added (missing : map.series.find? request.key = none) (limit : env.limitReached = false)
      (vars : List MetricVariable)
      (made : (make request env (decide (request.metricsName ∈ map.descSettingRec))).1 = some vars)
      (descSettingRec : List String) :
      Gets timed make request env map
        (some map.allocated, { map with
            series := map.series.insert request.key
              ⟨map.allocated, request.metricsName, vars, env.now⟩
            descSettingRec := descSettingRec
            allocated := map.allocated + 1 })

theorem gets_getOrMake (timed : Bool) (make : SeriesMaker K) (request : SeriesRequest K)
    (env : SeriesEnv) (map : SeriesMap K) :
    Gets timed make request env map (getOrMake timed make request env map) := by
  rw [getOrMake]
  split
  · next series found => exact .found series found
  · next missing =>
    split
    · next limit => exact .limited missing limit
    · next limit =>
      simp only
      split
      · next made => exact .failed missing (eq_false_of_ne_true limit) made _
      · next vars made => exact .added missing (eq_false_of_ne_true limit) vars made _

end SeriesMap
end McBrpc
