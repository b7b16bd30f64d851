import McBrpc.Bvar.SeriesMap

/-!
# Metric recorders

A recorder finds its series by a hash of the text that it writes for the label values: `find` in a
map of the recorder or a global one, `find2` in a global map with cleaning.  No separator stands
between the parts of the text.
-/

namespace McBrpc

open SeriesMaker SeriesMap

inductive RecorderKind where
  | count
  | latency
  deriving DecidableEq

/-- The text that a recorder keeps for its fixed labels. -/
def spellLabels (labels : List (String × String)) : String :=
  String.join (labels.map fun label => label.1 ++ ":" ++ label.2 ++ "|")

/-- A `MetricsCountRecorder` or `MetricsLatencyRecorder`, numbered as an object. -/
structure MetricsRecorder where
  object : Nat
  kind : RecorderKind
  metricsName : String
  metricsDesc : String
  dataType : MetricsDataType
  fixedLabels : List (String × String)
  unfixedLabels : List String
  fixedLabelsStr : String
  spelled : fixedLabelsStr = spellLabels fixedLabels
  deriving DecidableEq

namespace MetricsRecorder

def new (object : Nat) (kind : RecorderKind) (metricsName metricsDesc : String)
    (dataType : MetricsDataType) : MetricsRecorder :=
  ⟨object, kind, metricsName, metricsDesc, dataType, [], [], "", rfl⟩

/-- `set_metrics_label` with a value. -/
def setMetricsLabel (key val : String) (recorder : MetricsRecorder) : Bool × MetricsRecorder :=
  if (key, val) ∈ recorder.fixedLabels then (false, recorder)
  else
    (true, { recorder with
        fixedLabels := recorder.fixedLabels ++ [(key, val)]
        fixedLabelsStr := recorder.fixedLabelsStr ++ (key ++ ":" ++ val ++ "|")
        spelled := by
          rw [recorder.spelled, spellLabels, spellLabels, List.map_append, String.join_append]
          simp })

/-- `set_metrics_label` without a value. -/
def setUnfixedLabel (key : String) (recorder : MetricsRecorder) : Bool × MetricsRecorder :=
  if key ∈ recorder.unfixedLabels then (false, recorder)
  else (true, { recorder with unfixedLabels := recorder.unfixedLabels ++ [key] })

end MetricsRecorder

/-- The flags of the recorders and the hash functions for the keys of their maps. -/
structure MetricsFlags (K : Type) where
  labelsMaxSize : Nat
  enableMetricsShardMap : Bool
  zero : K
  murmurHash32 : String → K
  murmurHash128 : String → K

inductive MetricsMapId where
  | own (recorder : MetricsRecorder)
  | global (kind : GlobalMap)
  deriving DecidableEq

abbrev MetricsState (K : Type) := MetricsMapId → SeriesMap K

inductive FindMethod where
  | find
  | find2
  deriving DecidableEq

/-- A call of `find` or `find2`. -/
structure SeriesCall where
  recorder : MetricsRecorder
  method : FindMethod
  keys : List String
  env : SeriesEnv

/-- The loop of `SAFE_MEMCOPY`, which joins the values unless they are too long. -/
def splice (labelsMaxSize : Nat) : Nat → List String → Option String
  | _, [] => some ""
  | curLen, key :: keys =>
    if (key.utf8ByteSize : Int) > (labelsMaxSize : Int) - curLen then none
    else (splice labelsMaxSize (curLen + key.utf8ByteSize) keys).map (key ++ ·)

def RecorderKind.globalMap : RecorderKind → FindMethod → GlobalMap
  | count, .find => .metrics
  | count, .find2 => .metricsWithCleaning
  | latency, .find => .latency
  | latency, .find2 => .latencyWithCleaning

/-- How a recorder makes a series in its own map. -/
def RecorderKind.ownMaker {K : Type} : RecorderKind → SeriesMaker K
  | count => ownAdder
  | latency => latencyItem

namespace SeriesCall

variable {K : Type} [DecidableEq K] (flags : MetricsFlags K)

variable (call : SeriesCall)

def request (key : K) : SeriesRequest K :=
  ⟨key, call.recorder.metricsName, call.recorder.dataType, call.recorder.metricsDesc,
    call.recorder.fixedLabels, call.recorder.unfixedLabels, call.keys⟩

/-- A call of one map; a series is named by its map and its object. -/
def useMap (id : MetricsMapId) (get : SeriesMap K → Option Nat × SeriesMap K)
    (state : MetricsState K) : Option (MetricsMapId × Nat) × MetricsState K :=
  let result := get (state id)
  (result.1.map fun object => (id, object), Function.update state id result.2)

def globalText (unfixedKeys : String) : String :=
  call.recorder.metricsName ++ call.recorder.fixedLabelsStr ++ unfixedKeys

/-- The end of `find_in_global_map` and of `find2`. -/
def useGlobalMap (unfixedKeys : String) (state : MetricsState K) :
    Option (MetricsMapId × Nat) × MetricsState K :=
  let kind := call.recorder.kind.globalMap call.method
  let key := flags.murmurHash128 (call.globalText unfixedKeys)
  if call.env.quitting then (none, state)
  else
    useMap (.global kind) (getSeries flags.zero kind.cleans kind.make (call.request key)
      call.env) state

def findInGlobalMap (unfixedKeys : String) (state : MetricsState K) :
    Option (MetricsMapId × Nat) × MetricsState K :=
  if unfixedKeys = "" then (none, state) else call.useGlobalMap flags unfixedKeys state

def find (state : MetricsState K) : Option (MetricsMapId × Nat) × MetricsState K :=
  if call.keys.length ≠ call.recorder.unfixedLabels.length ∨ call.keys = [] then (none, state)
  else
    match splice flags.labelsMaxSize 0 call.keys with
    | none => (none, state)
    | some buf =>
      if flags.enableMetricsShardMap then call.findInGlobalMap flags buf state
      else
        useMap (.own call.recorder) (getOrMake false call.recorder.kind.ownMaker
          (call.request (flags.murmurHash32 buf)) call.env) state

def find2 (state : MetricsState K) : Option (MetricsMapId × Nat) × MetricsState K :=
  if call.keys.length ≠ call.recorder.unfixedLabels.length then (none, state)
  else
    match splice flags.labelsMaxSize 0 call.keys with
    | none => (none, state)
    | some buf => call.useGlobalMap flags buf state

/-- The series that the call returns, unless it returns the error object of its recorder. -/
def run (state : MetricsState K) : Option (MetricsMapId × Nat) × MetricsState K :=
  match call.method with
  | .find => call.find flags state
  | .find2 => call.find2 flags state

end SeriesCall

/-- A call, or a half of a cleaning pass of a global map. -/
inductive MetricsAction (K : Type) where
  | call (call : SeriesCall)
  | seek (kind : GlobalMap) (curTime : Int)
  | clean (kind : GlobalMap) (useCount : K → Nat)

namespace MetricsState

variable {K : Type} [DecidableEq K]

def initial : MetricsState K := fun _ => empty

/-- The effect of an action, with a timeout for idle series. -/
def step (flags : MetricsFlags K) (timeout : Int) (state : MetricsState K) :
    MetricsAction K → MetricsState K
  | .call call => (call.run flags state).2
  | .seek kind curTime =>
    Function.update state (.global kind)
      (SeriesMap.step flags.zero timeout kind (state (.global kind)) (.seek curTime))
  | .clean kind useCount =>
    Function.update state (.global kind)
      (SeriesMap.step flags.zero timeout kind (state (.global kind)) (.clean useCount))

end MetricsState
end McBrpc
