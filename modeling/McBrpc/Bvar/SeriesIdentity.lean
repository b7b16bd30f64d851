import McBrpc.Bvar.MetricsRecorder
import McBrpc.Library.Execution

/-!
# Which series a recorder finds

Two calls return the same series exactly when they look in the same map for the same text.  Since
the parts of the text are written without separators, different label values of one recorder, and
recorders with different fixed labels, can share a series.
-/

namespace McBrpc

open Function SeriesMap Nat Option KeyedMap Execution MetricsState MetricsRecorder

namespace SeriesMap

variable {K : Type} [DecidableEq K]

/-- The object of the series under a key. -/
def objectAt (map : SeriesMap K) (key : K) : Option Nat :=
  (map.series.find? key).map MetricSeries.object

/-- No other key has, or will get, a series with this object. -/
structure Owns (map : SeriesMap K) (key : K) (object : Nat) : Prop where
  below : object < map.allocated
  only : ∀ other, map.objectAt other = some object → other = key

/-- Each series has an object of its own. -/
def Numbered (map : SeriesMap K) : Prop :=
  ∀ key object, map.objectAt key = some object → map.Owns key object

/-- A step drops series, or adds one with the next object. -/
inductive Advances (map after : SeriesMap K) : Prop where
  | fewer
      (kept : ∀ key object, after.objectAt key = some object → map.objectAt key = some object)
      (allocated : map.allocated ≤ after.allocated)
  | added (key : K)
      (objects : ∀ other, after.objectAt other =
        if other = key then some map.allocated else map.objectAt other)
      (allocated : after.allocated = map.allocated + 1)

variable {map after : SeriesMap K}

theorem numbered_empty : Numbered (empty : SeriesMap K) :=
  fun _ _ held => nomatch held

theorem Owns.advances {key : K} {object : Nat} (owns : map.Owns key object)
    (advances : Advances map after) : after.Owns key object := by
  cases advances with
  | fewer kept used =>
    exact ⟨lt_of_lt_of_le owns.below used,
      fun other held => owns.only other (kept other object held)⟩
  | added new objects used =>
    refine ⟨used ▸ lt_succ_of_lt owns.below, fun other held => ?_⟩
    rw [objects] at held
    split at held
    · exact absurd (some.inj held) (ne_of_gt owns.below)
    · exact owns.only other held

theorem Numbered.advances (numbered : Numbered map) (advances : Advances map after) :
    Numbered after := by
  intro key object held
  cases advances with
  | fewer kept used =>
    exact (numbered key object (kept key object held)).advances (.fewer kept used)
  | added new objects used =>
    rw [objects] at held
    split at held
    · next same =>
      obtain rfl := some.inj held
      refine ⟨used ▸ lt_succ_self _, fun other held' => ?_⟩
      rw [objects] at held'
      split at held'
      · next same' => exact same'.trans same.symm
      · exact absurd (numbered other _ held').below (lt_irrefl _)
    · exact (numbered key object held).advances (.added new objects used)

theorem objectAt_insert (key : K) (series : MetricSeries) (descSettingRec : List String)
    (allocated : Nat) (other : K) :
    objectAt { map with
        series := map.series.insert key series
        descSettingRec := descSettingRec
        allocated := allocated } other =
      if other = key then some series.object else map.objectAt other := by
  rw [objectAt, find?_insert]
  split
  · rfl
  · rfl

section Gets

variable {timed : Bool} {make : SeriesMaker K} {request : SeriesRequest K} {env : SeriesEnv}
  {result : Option Nat × SeriesMap K}

theorem objectAt_gets (gets : Gets timed make request env map result) :
    (∀ object, result.1 = some object → result.2.objectAt request.key = some object) ∧
      ∀ key object, map.objectAt key = some object → result.2.objectAt key = some object := by
  cases gets with
  | found series found =>
    have here : map.objectAt request.key = some series.object := by
      rw [objectAt, found]
      rfl
    split
    · simp only [objectAt_insert _ _ map.descSettingRec map.allocated]
      refine ⟨fun object returned => (if_pos trivial).trans returned, fun key object held => ?_⟩
      split
      · next same => rw [← held, same, here]
      · exact held
    · exact ⟨fun object returned => here.trans returned, fun key object held => held⟩
  | limited | failed =>
    exact ⟨fun _ returned => (nomatch returned), fun _ _ held => held⟩
  | added missing limit vars made descs =>
    simp only [objectAt_insert]
    refine ⟨fun object returned => (if_pos trivial).trans returned, fun key object held => ?_⟩
    split
    · next same =>
      rw [same, objectAt, missing] at held
      cases held
    · exact held

theorem Gets.advances (gets : Gets timed make request env map result) : Advances map result.2 := by
  cases gets with
  | found series found =>
    refine .fewer (fun key object held => ?_) ?_
    · split at held
      · rw [objectAt_insert _ _ map.descSettingRec map.allocated] at held
        split at held
        · next same =>
          rw [same, objectAt, found]
          exact held
        · exact held
      · exact held
    · split
      · exact le_refl _
      · exact le_refl _
  | limited missing limit => exact .fewer (fun _ _ held => held) (le_refl _)
  | failed missing limit made descs =>
    exact .fewer (fun _ _ held => held) (le_succ _)
  | added missing limit vars made descs =>
    exact .added request.key (fun other => objectAt_insert _ _ _ _ other) rfl

end Gets

theorem gets_getSeries (zero : K) (timed : Bool) (make : SeriesMaker K) (request : SeriesRequest K)
    (env : SeriesEnv) :
    getSeries zero timed make request env map = (none, map) ∨
      Gets timed make request env map (getSeries zero timed make request env map) := by
  rw [getSeries]
  split
  · exact .inl rfl
  · split
    · exact .inl rfl
    · exact .inr (gets_getOrMake timed make request env map)

theorem advances_cleanKey (timeout curTime : Int) (useCount : K → Nat) (key : K) :
    Advances map (cleanKey timeout curTime useCount map key) := by
  rw [cleanKey]
  split
  · exact .fewer (fun _ _ held => held) (le_refl _)
  · split
    · refine .fewer (fun other object held => ?_) (le_refl _)
      rw [objectAt, find?_erase] at held
      split at held
      · cases held
      · exact held
    · exact .fewer (fun _ _ held => held) (le_refl _)

theorem reaches_cleanExpired (timeout : Int) (useCount : K → Nat) :
    Relation.ReflTransGen Advances map (cleanExpired timeout useCount map) := by
  refine foldl_invariant (Relation.ReflTransGen Advances map) _ ?_ ?_
  · exact .single (.fewer (fun _ _ held => held) (le_refl _))
  · exact fun _ key _ reached => reached.tail (advances_cleanKey timeout _ useCount key)

theorem Owns.reaches {key : K} {object : Nat} (owns : map.Owns key object)
    (reaches : Relation.ReflTransGen Advances map after) : after.Owns key object := by
  induction reaches with
  | refl => exact owns
  | tail _ advances ih => exact ih.advances advances

theorem Numbered.reaches (numbered : Numbered map)
    (reaches : Relation.ReflTransGen Advances map after) : Numbered after := by
  induction reaches with
  | refl => exact numbered
  | tail _ advances ih => exact ih.advances advances

end SeriesMap

def MetricsMapId.hash {K : Type} (flags : MetricsFlags K) : MetricsMapId → String → K
  | .own _ => flags.murmurHash32
  | .global _ => flags.murmurHash128

theorem splice_eq {labelsMaxSize curLen : Nat} {keys : List String} {buf : String}
    (spliced : splice labelsMaxSize curLen keys = some buf) : buf = String.join keys := by
  induction keys generalizing curLen buf with
  | nil => exact (some.inj spliced).symm
  | cons key keys ih =>
    rw [splice] at spliced
    split at spliced
    · cases spliced
    · obtain ⟨rest, rest_eq, rfl⟩ := map_eq_some_iff.mp spliced
      rw [String.join_cons, ih rest_eq]

namespace SeriesCall

variable (shared : Bool) (call : SeriesCall)

/-- The map that a call looks in, where `shared` is the flag of the shard map. -/
def mapId : MetricsMapId :=
  if call.method = .find ∧ shared = false then .own call.recorder
  else .global (call.recorder.kind.globalMap call.method)

/-- The name of the metric, its fixed labels and the values of a call. -/
def fullText : String :=
  call.recorder.metricsName ++ spellLabels call.recorder.fixedLabels ++ String.join call.keys

/-- What stands for a series in the map: the values alone in the map of a recorder. -/
def mapText : String :=
  if call.method = .find ∧ shared = false then String.join call.keys else call.fullText

end SeriesCall

namespace SeriesCall

variable {K : Type} [DecidableEq K] {flags : MetricsFlags K}

/-- What a call can do: nothing, or one use of the map that it looks in. -/
def Uses (flags : MetricsFlags K) (call : SeriesCall) (state : MetricsState K)
    (result : Option (MetricsMapId × Nat) × MetricsState K) : Prop :=
  let id := call.mapId flags.enableMetricsShardMap
  ∃ timed make used, SeriesMap.Gets timed make
      (call.request (id.hash flags (call.mapText flags.enableMetricsShardMap))) call.env
      (state id) used ∧
    result.1 = (used.1.map fun object => (id, object)) ∧
    result.2 = Function.update state id used.2

theorem useGlobalMap_uses {call : SeriesCall} {buf : String} (state : MetricsState K)
    (spliced : splice flags.labelsMaxSize 0 call.keys = some buf)
    (global : ¬(call.method = .find ∧ flags.enableMetricsShardMap = false)) :
    call.useGlobalMap flags buf state = (none, state) ∨
      call.Uses flags state (call.useGlobalMap flags buf state) := by
  have text_eq : call.globalText buf = call.mapText flags.enableMetricsShardMap := by
    rw [globalText, mapText, if_neg global, fullText, splice_eq spliced, call.recorder.spelled]
  have id_eq : call.mapId flags.enableMetricsShardMap =
      .global (call.recorder.kind.globalMap call.method) := if_neg global
  rw [useGlobalMap, text_eq]
  split
  · exact .inl rfl
  · rcases gets_getSeries flags.zero (call.recorder.kind.globalMap call.method).cleans
      (call.recorder.kind.globalMap call.method).make
      (call.request (flags.murmurHash128 (call.mapText flags.enableMetricsShardMap)))
      call.env with refused | gets
    · left
      rw [useMap, refused, update_eq_self]
      rfl
    · right
      rw [Uses, id_eq]
      exact ⟨_, _, _, gets, rfl, rfl⟩

theorem run_uses (flags : MetricsFlags K) (call : SeriesCall) (state : MetricsState K) :
    call.run flags state = (none, state) ∨ call.Uses flags state (call.run flags state) := by
  rw [run]
  split
  · next method =>
    rw [find]
    split
    · exact .inl rfl
    · split
      · exact .inl rfl
      · next buf spliced =>
        split
        · next shard =>
          rw [findInGlobalMap]
          split
          · exact .inl rfl
          · exact useGlobalMap_uses state spliced (by simp [shard])
        · next shard =>
          have own : call.method = .find ∧ flags.enableMetricsShardMap = false :=
            ⟨method, eq_false_of_ne_true shard⟩
          right
          rw [Uses, mapId, mapText, if_pos own, if_pos own, ← splice_eq spliced]
          exact ⟨_, _, _, gets_getOrMake _ _ _ _ _, rfl, rfl⟩
  · next method =>
    rw [find2]
    split
    · exact .inl rfl
    · split
      · exact .inl rfl
      · next buf spliced => exact useGlobalMap_uses state spliced (by simp [method])

theorem reaches_run (flags : MetricsFlags K) (call : SeriesCall) (state : MetricsState K)
    (id : MetricsMapId) :
    Relation.ReflTransGen SeriesMap.Advances (state id) ((call.run flags state).2 id) := by
  rcases call.run_uses flags state with refused | ⟨_, _, used, gets, _, after⟩
  · rw [refused]
  · rw [after]
    by_cases same : id = call.mapId flags.enableMetricsShardMap
    · rw [same, update_self]
      exact .single gets.advances
    · rw [update_of_ne same]

theorem objectAt_run {call : SeriesCall} {state : MetricsState K} {series : MetricsMapId × Nat}
    (returned : (call.run flags state).1 = some series) :
    series.1 = call.mapId flags.enableMetricsShardMap ∧
      ((call.run flags state).2 series.1).objectAt
          (series.1.hash flags (call.mapText flags.enableMetricsShardMap)) = some series.2 := by
  rcases call.run_uses flags state with refused | ⟨_, _, used, gets, result, after⟩
  · rw [refused] at returned
    cases returned
  · rw [result] at returned
    obtain ⟨object, found, rfl⟩ := map_eq_some_iff.mp returned
    refine ⟨rfl, ?_⟩
    rw [after, update_self]
    exact (objectAt_gets gets).1 object found

theorem objectAt_run_of_objectAt (flags : MetricsFlags K) (call : SeriesCall)
    {state : MetricsState K} {id : MetricsMapId} {key : K} {object : Nat}
    (held : (state id).objectAt key = some object) :
    ((call.run flags state).2 id).objectAt key = some object := by
  rcases call.run_uses flags state with refused | ⟨_, _, used, gets, _, after⟩
  · rw [refused]
    exact held
  · rw [after]
    by_cases same : id = call.mapId flags.enableMetricsShardMap
    · subst same
      rw [update_self]
      exact (objectAt_gets gets).2 key object held
    · rw [update_of_ne same]
      exact held

end SeriesCall

namespace MetricsState

variable {K : Type} [DecidableEq K] {flags : MetricsFlags K} {timeout : Int}

theorem reaches_step (state : MetricsState K) (action : MetricsAction K) (id : MetricsMapId) :
    Relation.ReflTransGen SeriesMap.Advances (state id) (state.step flags timeout action id) := by
  cases action with
  | call call => exact call.reaches_run flags state id
  | seek kind curTime =>
    by_cases same : id = .global kind
    · rw [step, same, update_self, SeriesMap.step]
      split
      · exact .single (.fewer (fun _ _ held => held) (le_refl _))
      · exact .refl
    · rw [step, update_of_ne same]
  | clean kind useCount =>
    by_cases same : id = .global kind
    · rw [step, same, update_self, SeriesMap.step]
      split
      · exact SeriesMap.reaches_cleanExpired timeout useCount
      · exact .refl
    · rw [step, update_of_ne same]

theorem reaches_foldl_step (state : MetricsState K) (acts : List (MetricsAction K))
    (id : MetricsMapId) :
    Relation.ReflTransGen SeriesMap.Advances (state id)
      (acts.foldl (step flags timeout) state id) := by
  apply foldl_invariant fun reached : MetricsState K =>
    Relation.ReflTransGen SeriesMap.Advances (state id) (reached id)
  · exact .refl
  · exact fun _ action _ reached => reached.trans (reaches_step _ action id)

theorem numbered_foldl_step (acts : List (MetricsAction K)) (id : MetricsMapId) :
    (acts.foldl (step flags timeout) initial id).Numbered :=
  numbered_empty.reaches (reaches_foldl_step initial acts id)

end MetricsState

theorem MetricsMapId.hash_injective {K : Type} {flags : MetricsFlags K}
    (injective32 : Function.Injective flags.murmurHash32)
    (injective128 : Function.Injective flags.murmurHash128) (id : MetricsMapId) :
    Function.Injective (id.hash flags) := by
  cases id with
  | own recorder => exact injective32
  | global kind => exact injective128

namespace SeriesCall

variable {K : Type} [DecidableEq K] {flags : MetricsFlags K} {timeout : Int}

theorem same_series_iff (injective32 : Function.Injective flags.murmurHash32)
    (injective128 : Function.Injective flags.murmurHash128) {start middle : MetricsState K}
    {first second : SeriesCall} {series other : MetricsMapId × Nat}
    (numbered : ∀ id, (start id).Numbered) (returned : (first.run flags start).1 = some series)
    (reaches : ∀ id, Relation.ReflTransGen SeriesMap.Advances ((first.run flags start).2 id)
      (middle id)) (live : ∃ key, (middle series.1).objectAt key = some series.2)
    (returned' : (second.run flags middle).1 = some other) :
    series = other ↔
      first.mapId flags.enableMetricsShardMap = second.mapId flags.enableMetricsShardMap ∧
        first.mapText flags.enableMetricsShardMap = second.mapText flags.enableMetricsShardMap := by
  obtain ⟨id_eq, held⟩ := objectAt_run returned
  obtain ⟨id_eq', held'⟩ := objectAt_run returned'
  have numbered_first := (numbered series.1).reaches (first.reaches_run flags start series.1)
  have owns := (numbered_first _ _ held).reaches
    ((reaches series.1).trans (second.reaches_run flags middle series.1))
  have held_second : ((second.run flags middle).2 series.1).objectAt
      (series.1.hash flags (first.mapText flags.enableMetricsShardMap)) = some series.2 := by
    obtain ⟨key, here⟩ := live
    have later := second.objectAt_run_of_objectAt flags here
    rwa [owns.only key later] at later
  rw [← id_eq, ← id_eq']
  constructor
  · rintro rfl
    exact ⟨rfl, (series.1.hash_injective injective32 injective128 (owns.only _ held')).symm⟩
  · rintro ⟨same_map, same_text⟩
    rw [← same_map, ← same_text, held_second] at held'
    exact Prod.ext same_map (some.inj held')

/-- Calls of one method on one recorder return one series exactly for equal values, and recorders
with different names or fixed labels return different series. -/
def Separates (first second : SeriesCall) (series other : MetricsMapId × Nat) : Prop :=
  (first.recorder = second.recorder → first.method = second.method →
    (series = other ↔ first.keys = second.keys)) ∧
  (first.recorder.metricsName ≠ second.recorder.metricsName ∨
    first.recorder.fixedLabels ≠ second.recorder.fixedLabels → series ≠ other)

/-- Different values of one recorder differ when they are written one after the other, and recorders
that share a global map differ in what they write, if they differ in the name or the fixed
labels. -/
structure Unambiguous (shared : Bool) (first second : SeriesCall) : Prop where
  values : first.recorder = second.recorder → first.method = second.method →
    String.join first.keys = String.join second.keys → first.keys = second.keys
  recorders : first.recorder.kind = second.recorder.kind → first.method = second.method →
    (first.method = .find2 ∨ shared = true) →
    (first.recorder.metricsName ≠ second.recorder.metricsName ∨
      first.recorder.fixedLabels ≠ second.recorder.fixedLabels) →
    first.recorder.metricsName ++ spellLabels first.recorder.fixedLabels ++
        String.join first.keys ≠
      second.recorder.metricsName ++ spellLabels second.recorder.fixedLabels ++
        String.join second.keys

theorem mapText_eq_iff {shared : Bool} {first second : SeriesCall}
    (recorder : first.recorder = second.recorder) (method : first.method = second.method) :
    first.mapText shared = second.mapText shared ↔
      String.join first.keys = String.join second.keys := by
  rw [mapText, mapText, fullText, fullText, recorder, method]
  split
  · exact Iff.rfl
  · exact String.append_right_inj _

theorem not_own_of_global {shared : Bool} {call : SeriesCall}
    (global : call.method = .find2 ∨ shared = true) :
    ¬(call.method = .find ∧ shared = false) := by
  rcases global with find2 | shard
  · simp [find2]
  · simp [shard]

theorem mapText_of_global {shared : Bool} {call : SeriesCall}
    (global : call.method = .find2 ∨ shared = true) : call.mapText shared = call.fullText :=
  if_neg (not_own_of_global global)

theorem globalMap_inj {kind kind' : RecorderKind} {method method' : FindMethod}
    (same : kind.globalMap method = kind'.globalMap method') : kind = kind' ∧ method = method' := by
  cases kind <;> cases kind' <;> cases method <;> cases method' <;>
    simp_all [RecorderKind.globalMap]

/-- Different recorders meet in a global map only. -/
theorem mapId_eq_iff {shared : Bool} {first second : SeriesCall}
    (differ : first.recorder ≠ second.recorder) :
    first.mapId shared = second.mapId shared ↔ first.recorder.kind = second.recorder.kind ∧
      first.method = second.method ∧ (first.method = .find2 ∨ shared = true) := by
  rw [mapId, mapId]
  constructor
  · intro same
    split_ifs at same with own own' own'
    · exact absurd (MetricsMapId.own.inj same) differ
    · obtain ⟨kind, method⟩ := globalMap_inj (MetricsMapId.global.inj same)
      refine ⟨kind, method, ?_⟩
      cases first_method : first.method with
      | find => exact .inr (by simpa [first_method] using own)
      | find2 => exact .inl rfl
  · rintro ⟨kind, method, global⟩
    rw [if_neg (not_own_of_global global), if_neg (not_own_of_global (method ▸ global)), kind,
      method]

/-- Calls in any run, with injective hashes, keep their series apart exactly when their names,
labels and values are unambiguous. -/
theorem separates_iff_unambiguous (flags : MetricsFlags K) (timeout : Int)
    (injective32 : Function.Injective flags.murmurHash32)
    (injective128 : Function.Injective flags.murmurHash128)
    (before between : List (MetricsAction K)) (first second : SeriesCall)
    (series other : MetricsMapId × Nat) (start middle : MetricsState K)
    (starts : before.foldl (step flags timeout) .initial = start)
    (returned : (first.run flags start).1 = some series)
    (continues : between.foldl (step flags timeout) (first.run flags start).2 = middle)
    (live : ∃ key, (middle series.1).objectAt key = some series.2)
    (returned' : (second.run flags middle).1 = some other) :
    Separates first second series other ↔
      Unambiguous flags.enableMetricsShardMap first second := by
  subst starts continues
  have same_series := same_series_iff injective32 injective128
    (numbered_foldl_step before) returned
    (reaches_foldl_step _ between) live returned'
  have same_recorder : first.recorder = second.recorder → first.method = second.method →
      (series = other ↔ String.join first.keys = String.join second.keys) := by
    intro recorder method
    rw [same_series, mapText_eq_iff recorder method]
    refine and_iff_right ?_
    rw [mapId, mapId, recorder, method]
  have different : first.recorder.metricsName ≠ second.recorder.metricsName ∨
      first.recorder.fixedLabels ≠ second.recorder.fixedLabels →
        first.recorder ≠ second.recorder := by
    rintro (name | labels) same
    · exact name (congrArg metricsName same)
    · exact labels (congrArg fixedLabels same)
  constructor
  · rintro ⟨values, recorders⟩
    refine ⟨fun recorder method joined => ?_, fun kind method global differ same => ?_⟩
    · exact (values recorder method).mp ((same_recorder recorder method).mpr joined)
    · refine recorders differ (same_series.mpr
        ⟨(mapId_eq_iff (different differ)).mpr ⟨kind, method, global⟩, ?_⟩)
      rw [mapText_of_global global, mapText_of_global (method ▸ global)]
      exact same
  · rintro ⟨values, recorders⟩
    refine ⟨fun recorder method => ?_, fun differ same => ?_⟩
    · rw [same_recorder recorder method]
      exact ⟨values recorder method, congrArg _⟩
    · obtain ⟨same_map, same_text⟩ := same_series.mp same
      obtain ⟨kind, method, global⟩ := (mapId_eq_iff (different differ)).mp same_map
      rw [mapText_of_global global, mapText_of_global (method ▸ global)] at same_text
      exact recorders kind method global differ same_text

/-- Hashes that keep the text. -/
def textFlags : MetricsFlags String :=
  ⟨256, false, "", id, id⟩

def pairRecorder : MetricsRecorder :=
  let recorder := new 0 .count "visits" "Visits" .counter
  ((recorder.setUnfixedLabel "from").2.setUnfixedLabel "to").2

/-- A call of `find2` that nothing hinders. -/
def calmCall (recorder : MetricsRecorder) (keys : List String) : SeriesCall :=
  ⟨recorder, .find2, keys, calmEnv 0⟩

theorem separates_pairRecorder : let first := calmCall pairRecorder ["ab", "c"]
    let second := calmCall pairRecorder ["a", "c"]
    (first.run textFlags .initial).1 = some (.global .metricsWithCleaning, 0) ∧
      (second.run textFlags (first.run textFlags .initial).2).1 =
        some (.global .metricsWithCleaning, 1) ∧
      Separates first second (.global .metricsWithCleaning, 0)
        (.global .metricsWithCleaning, 1) := by
  refine ⟨by decide, by decide, ?_⟩
  refine (separates_iff_unambiguous textFlags 10 injective_id injective_id [] [] _ _ _ _
    _ _ rfl (by decide) rfl ⟨"visitsabc", by decide⟩ (by decide)).mpr ⟨?_, ?_⟩
  · intro _ _ joined
    exact absurd joined (by decide)
  · rintro _ _ _ (name | labels)
    · exact absurd rfl name
    · exact absurd rfl labels

def plainRecorder : MetricsRecorder :=
  ((new 1 .count "hits" "Hits" .counter).setUnfixedLabel "to").2

/-- A recorder of the same metric with a fixed label. -/
def fixedRecorder : MetricsRecorder :=
  let recorder := new 2 .count "hits" "Hits" .counter
  ((recorder.setMetricsLabel "x" "y").2.setUnfixedLabel "to").2

/-- Different values of one recorder, and recorders with different fixed labels, share a series. -/
theorem not_separates_pairRecorder :
    (∃ series, ((calmCall pairRecorder ["ab", "c"]).run textFlags .initial).1 = some series ∧
      ((calmCall pairRecorder ["a", "bc"]).run textFlags
        ((calmCall pairRecorder ["ab", "c"]).run textFlags .initial).2).1 = some series ∧
      ¬Separates (calmCall pairRecorder ["ab", "c"]) (calmCall pairRecorder ["a", "bc"])
        series series) ∧
    ∃ series, ((calmCall plainRecorder ["x:y|z"]).run textFlags .initial).1 = some series ∧
      ((calmCall fixedRecorder ["z"]).run textFlags
        ((calmCall plainRecorder ["x:y|z"]).run textFlags .initial).2).1 = some series ∧
      ¬Separates (calmCall plainRecorder ["x:y|z"]) (calmCall fixedRecorder ["z"])
        series series := by
  refine ⟨⟨(.global .metricsWithCleaning, 0), by decide, by decide, fun separates => ?_⟩,
    ⟨(.global .metricsWithCleaning, 0), by decide, by decide, fun separates => ?_⟩⟩
  · exact absurd ((separates.1 rfl rfl).mp rfl) (by decide)
  · exact separates.2 (.inr (by decide)) rfl

end SeriesCall
end McBrpc
