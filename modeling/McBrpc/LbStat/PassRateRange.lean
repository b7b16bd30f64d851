import McBrpc.LbStat.McStrategyRound

/-!
# The range of the pass rates

The pass rate of an entry is a percentage that both generators store in a `short`.  Along a run of
rounds, every value that a round converts to `short` is recorded, so that a value that does not fit
is seen even when it is clamped afterwards.
-/

namespace McBrpc

open MultiLevelHash DefaultStrategyGenerator List HashSlot ServerStats Execution

inductive StrategyGenerator where
  | default
  | mc (config : StrategyConfig)

namespace StrategyGenerator

variable (host : Host) (env : RoundEnv) {hash : MultiLevelHash}

variable (generator : StrategyGenerator)

def updateStrategy (shm : StrategyShm) (statMap : StatMap) : Int × StrategyShm × StatMap :=
  match generator with
  | default => DefaultStrategyGenerator.updateStrategy env shm statMap
  | mc config => McStrategyGenerator.updateStrategy host config env shm statMap

/-- The body of the loop over the slots of the current board. -/
def rebuildSlot (hash : MultiLevelHash) : RoundState → StrategyShmInfo → RoundState :=
  match generator with
  | default => DefaultStrategyGenerator.rebuildSlot env hash
  | mc config => McStrategyGenerator.rebuildSlot host config env hash

/-- The entry of a measured endpoint on the new board. -/
def change : ServerStats → StrategyShmInfo → StrategyShmInfo :=
  match generator with
  | default => refresh env
  | mc config => McStrategyGenerator.change host config env

/-- The values that are converted to `short` for the entry of a measured endpoint. -/
def narrows (stats : ServerStats) (info : StrategyShmInfo) : List ℚ :=
  match generator with
  | default => [stats.curPassRate]
  | mc config =>
    if info.passRate = 0 then
      if 80 < stats.curPassRate then [(info.passRate.toInt : ℚ) + 15] else []
    else
      match McStrategyGenerator.lookUp config stats with
      | none => []
      | some weightIncr => [McStrategyGenerator.scaled host info.passRate weightIncr]

/-- The values that are converted to `short` when a slot of the current board is visited. -/
def slotNarrows (hash : MultiLevelHash) (state : RoundState) (shmInfo : StrategyShmInfo) : List ℚ :=
  if shmInfo.keyLen = 0 then []
  else
    match shmInfo.key2EndPoint with
    | .error _ => []
    | .ok ep =>
      match state.1.find? (endpoint2str ep) with
      | none => []
      | some stats =>
        if stats.totalReqCnt = 0 then []
        else
          match hash.insert state.2 shmInfo with
          | (_, none) => []
          | (_, some _) => generator.narrows host stats shmInfo

/-- The values that are converted to `short` in the loop over slots of the current board. -/
def boardNarrows (generator : StrategyGenerator) (hash : MultiLevelHash)
    (cur : Nat → StrategyShmInfo) : List Nat → RoundState → List ℚ
  | [], _ => []
  | slot :: order, state =>
    generator.slotNarrows host hash state (cur slot) ++
      boardNarrows generator hash cur order (generator.rebuildSlot host env hash state (cur slot))

/-- The values that are converted to `short` for statistics of new endpoints. -/
def freshNarrows (statMap : StatMap) : List ℚ :=
  (statMap.values.filter fun stats => stats.totalReqCnt ≠ 0).map curPassRate

/-- The values that a round converts to `short`. -/
def roundNarrows (shm : StrategyShm) (statMap : StatMap) : List ℚ :=
  match shm.shmHead with
  | none => []
  | some head =>
    let cur := shm.shmBody head.curShmboardIdx
    let order := List.range (slotNum shm.shmHash.levels)
    let state := (statMap, shm.shmBody (head.curShmboardIdx + 1))
    generator.boardNarrows host env shm.shmHash cur order state ++
      freshNarrows (walk (generator.rebuildSlot host env shm.shmHash) cur order state).1

theorem visits_rebuildSlot (ready : hash.Ready StrategyShmInfo) :
    Visits ready (generator.rebuildSlot host env hash)
      (renewWith env (generator.change host env)) := by
  cases generator with
  | default => exact DefaultStrategyGenerator.visits_rebuildSlot env ready
  | mc config => exact McStrategyGenerator.visits_rebuildSlot host config env ready

theorem updateStrategy_eq {shm : StrategyShm} {head : StrategyShmHead}
    (attached : shm.shmHead = some head) (ready : shm.shmHash.Ready StrategyShmInfo)
    (statMap : StatMap) :
    generator.updateStrategy host env shm statMap =
      (0, shm.publish head (publishedBy env shm.shmHash (generator.rebuildSlot host env shm.shmHash)
          (shm.shmBody head.curShmboardIdx) (statMap, shm.shmBody (head.curShmboardIdx + 1))),
        ∅) := by
  cases generator with
  | default => exact DefaultStrategyGenerator.updateStrategy_eq env attached ready statMap
  | mc config => exact McStrategyGenerator.updateStrategy_eq host config env attached ready statMap

theorem updateStrategy_of_detached {shm : StrategyShm} (detached : shm.shmHead = none)
    (statMap : StatMap) : generator.updateStrategy host env shm statMap = (-1, shm, statMap) := by
  cases generator with
  | default => simp [updateStrategy, DefaultStrategyGenerator.updateStrategy, detached]
  | mc config => simp [updateStrategy, McStrategyGenerator.updateStrategy, detached]

/-- Weights that keep the product with a percentage within `short`. -/
def Tame : StrategyGenerator → Prop
  | default => True
  | mc config => ∀ row ∈ config.entries, ∀ item ∈ row.2.entries,
      -32868 ≤ item.2.toInt ∧ item.2.toInt ≤ 32667

end StrategyGenerator

def StrategyShmInfo.InRange (info : StrategyShmInfo) : Prop :=
  0 ≤ info.passRate.toInt ∧ info.passRate.toInt ≤ 100

theorem fitsShort_curPassRate {stats : ServerStats}
    (bound : stats.succCnt.toNat + stats.failCnt.toNat < 2 ^ 32)
    (counted : stats.totalReqCnt ≠ 0) : FitsShort stats.curPassRate := by
  obtain ⟨lower, upper⟩ := floor_curPassRate_mem bound counted
  have nonneg : 0 ≤ stats.curPassRate := Int.floor_nonneg.mp lower
  have small : stats.curPassRate < 101 := by
    have := Int.floor_lt.mp (show ⌊stats.curPassRate⌋ < 101 by omega)
    exact_mod_cast this
  constructor <;> linarith

theorem inRange_refresh (env : RoundEnv) {stats : ServerStats} (info : StrategyShmInfo)
    (bound : stats.succCnt.toNat + stats.failCnt.toNat < 2 ^ 32)
    (counted : stats.totalReqCnt ≠ 0) : (refresh env stats info).InRange := by
  obtain ⟨lower, upper⟩ := floor_curPassRate_mem bound counted
  rw [floor_curPassRate_of_bounded bound counted] at lower upper
  rw [StrategyShmInfo.InRange, (refresh_counts env bound counted info).1]
  exact ⟨lower, upper⟩

namespace McStrategyGenerator

theorem inRange_change (host : Host) (config : StrategyConfig) (env : RoundEnv)
    (stats : ServerStats) {info : StrategyShmInfo} (inRange : info.InRange) :
    (change host config env stats info).InRange := by
  rw [change, adjust]
  split
  · next idle =>
    split
    · have raised : (info.passRate + 15).toInt = 15 := by rw [idle]; rfl
      rw [StrategyShmInfo.InRange, raised]
      decide
    · exact inRange
  · split
    · exact inRange
    · rw [StrategyShmInfo.InRange, toInt_clamp]
      omega

theorem mem_of_lookUp {config : StrategyConfig} {stats : ServerStats} {weightIncr : Int32}
    (found : lookUp config stats = some weightIncr) :
    ∃ row ∈ config.entries, ∃ item ∈ row.2.entries, item.2 = weightIncr := by
  obtain ⟨row, row_eq, weight_eq⟩ := Option.bind_eq_some_iff.mp found
  obtain ⟨item, item_eq, value_eq⟩ := Option.map_eq_some_iff.mp weight_eq
  exact ⟨row, OrderedMap.mem_of_lowerBound row_eq, item, OrderedMap.mem_of_lowerBound item_eq,
    value_eq⟩

end McStrategyGenerator

namespace StrategyGenerator

variable {host : Host} (env : RoundEnv) {hash : MultiLevelHash} {generator : StrategyGenerator}
  {info : StrategyShmInfo} {x : ℚ} {statMap : StatMap}

theorem inRange_change {stats : ServerStats} (inRange : info.InRange)
    (bound : stats.succCnt.toNat + stats.failCnt.toNat < 2 ^ 32)
    (counted : stats.totalReqCnt ≠ 0) : (generator.change host env stats info).InRange := by
  cases generator with
  | default => exact inRange_refresh env info bound counted
  | mc config => exact McStrategyGenerator.inRange_change host config env stats inRange

theorem fitsShort_of_narrows (faithful : host.Faithful) (tame : generator.Tame)
    {stats : ServerStats} (inRange : info.InRange)
    (bound : stats.succCnt.toNat + stats.failCnt.toNat < 2 ^ 32)
    (counted : stats.totalReqCnt ≠ 0) (x_mem : x ∈ generator.narrows host stats info) :
    FitsShort x := by
  cases generator with
  | default =>
    obtain rfl := mem_singleton.mp x_mem
    exact fitsShort_curPassRate bound counted
  | mc config =>
    simp only [narrows] at x_mem
    split at x_mem
    · next idle =>
      split at x_mem
      · obtain rfl := mem_singleton.mp x_mem
        rw [idle, Int16.toInt_zero]
        norm_num [FitsShort]
      · simp at x_mem
    · split at x_mem
      · simp at x_mem
      · next incr found =>
        obtain rfl := mem_singleton.mp x_mem
        obtain ⟨row, row_mem, item, mem, rfl⟩ := McStrategyGenerator.mem_of_lookUp found
        obtain ⟨weight_lower, weight_upper⟩ := tame row row_mem item mem
        exact McStrategyGenerator.fitsShort_scaled faithful inRange.1 inRange.2 weight_lower
          weight_upper

theorem mem_slotNarrows {state : RoundState}
    (x_mem : x ∈ generator.slotNarrows host hash state info) :
    ∃ stats, state.1.find? (entryText info) = some stats ∧ stats.totalReqCnt ≠ 0 ∧
      x ∈ generator.narrows host stats info := by
  rw [slotNarrows] at x_mem
  split at x_mem
  · simp at x_mem
  · next used =>
    rw [info.key2EndPoint_eq used] at x_mem
    cases found : state.1.find? (entryText info) with
    | none =>
      rw [entryText] at found
      simp [found] at x_mem
    | some stats =>
      rw [entryText] at found
      simp only [found] at x_mem
      split at x_mem
      · simp at x_mem
      · next counted =>
        split at x_mem
        · simp at x_mem
        · exact ⟨stats, rfl, counted, x_mem⟩

theorem mem_boardNarrows (ready : hash.Ready StrategyShmInfo) {cur : Nat → StrategyShmInfo}
    (order : List Nat) {state : RoundState}
    (part : ∀ text stats, state.1.find? text = some stats → statMap.find? text = some stats)
    (x_mem : x ∈ generator.boardNarrows host env hash cur order state) :
    ∃ slot text stats, statMap.find? text = some stats ∧ stats.totalReqCnt ≠ 0 ∧
      x ∈ generator.narrows host stats (cur slot) := by
  induction order generalizing state with
  | nil => simp [boardNarrows] at x_mem
  | cons slot order ih =>
    rcases mem_append.mp x_mem with here | later
    · obtain ⟨stats, found, counted, narrowed⟩ := mem_slotNarrows here
      exact ⟨slot, _, stats, part _ _ found, counted, narrowed⟩
    · refine ih (fun text stats found => part text stats ?_) later
      have seen : (walk (generator.rebuildSlot host env hash) cur [slot] state).1.find? text =
          some stats := found
      exact (generator.visits_rebuildSlot host env ready).find?_of_walk seen

theorem mem_freshNarrows (x_mem : x ∈ freshNarrows statMap) :
    ∃ text stats, statMap.find? text = some stats ∧ stats.totalReqCnt ≠ 0 ∧
      x = stats.curPassRate := by
  obtain ⟨stats, mem, rfl⟩ := mem_map.mp x_mem
  obtain ⟨mem, counted⟩ := mem_filter.mp mem
  obtain ⟨text, found⟩ := (KeyedMap.mem_values_iff _ _).mp mem
  exact ⟨text, stats, found, by simpa using counted, rfl⟩

theorem inRange_publishedBy (ready : hash.Ready StrategyShmInfo) (bound : Bounded statMap)
    {cur backup : Nat → StrategyShmInfo} (cur_inRange : ∀ slot, (cur slot).InRange)
    (backup_inRange : ∀ slot, (backup slot).InRange) (slot : Nat) :
    (publishedBy env hash (generator.rebuildSlot host env hash) cur (statMap, backup)
      slot).InRange := by
  have visits := generator.visits_rebuildSlot host env ready
  have walked : ∀ slot, ((walk (generator.rebuildSlot host env hash) cur
      (List.range (slotNum hash.levels)) (statMap, backup)).2 slot).InRange := by
    refine visits.walk_induction StrategyShmInfo.InRange statMap ?_ ?_ _ (fun _ _ found => found)
      backup_inRange
    · intro slot info _ renewed
      rcases renewWith_cases renewed with ⟨stats, found, counted, rfl⟩ | rfl
      · exact inRange_change env (cur_inRange slot) (bound _ _ found) counted
      · exact cur_inRange slot
    · intro slot info _ renewed
      rcases renewWith_cases renewed with ⟨stats, found, -⟩ | rfl
      · simp at found
      · exact cur_inRange slot
  refine foldl_invariant
    (fun state : RoundState => ∀ slot, (state.2 slot).InRange) _ walked ?_ slot
  intro state it it_mem inRange slot
  rw [insertFresh, ready.insert_eq]
  split
  · next counted =>
    have found := visits.find?_of_walk ((KeyedMap.mem_entries_iff _ _ _).mp it_mem)
    exact ready.table.insert_forall inRange
      (inRange_refresh env _ (bound _ _ found) counted) slot
  · exact inRange slot

end StrategyGenerator

/-- A call of `UpdateStrategy`. -/
structure StrategyRound where
  generator : StrategyGenerator
  env : RoundEnv
  statMap : StatMap

namespace StrategyRound

def apply (host : Host) (shm : StrategyShm) (round : StrategyRound) : StrategyShm :=
  (round.generator.updateStrategy host round.env shm round.statMap).2.1

/-- The round publishes percentages, and no value that it converts to `short` is out of range. -/
structure InRange (host : Host) (shm : StrategyShm) (round : StrategyRound) : Prop where
  narrows : ∀ x ∈ round.generator.roundNarrows host round.env shm round.statMap, FitsShort x
  published : ∀ head, (apply host shm round).shmHead = some head →
    ∀ slot < slotNum shm.shmHash.levels,
      ((apply host shm round).shmBody head.curShmboardIdx slot).keyLen ≠ 0 →
        ((apply host shm round).shmBody head.curShmboardIdx slot).InRange

/-- The counted requests do not overflow and the configured weights are moderate. -/
def Tame (round : StrategyRound) : Prop :=
  Bounded round.statMap ∧ round.generator.Tame

/-- A hash over the segment that holds percentages on both boards. -/
structure Sound (shm : StrategyShm) : Prop where
  ready : shm.shmHash.Ready StrategyShmInfo
  inRange : ∀ board slot, (shm.shmBody board slot).InRange

variable {host : Host} {shm : StrategyShm} {round : StrategyRound}

theorem inRange_zero : (zero : StrategyShmInfo).InRange := ⟨by decide, by decide⟩

theorem inRange_reset {slots : Nat → StrategyShmInfo} (hash : MultiLevelHash)
    (inRange : ∀ slot, (slots slot).InRange) (slot : Nat) : (hash.reset slots slot).InRange := by
  rw [MultiLevelHash.reset]
  split
  · beta_reduce
    split
    · exact inRange_zero
    · exact inRange slot
  · exact inRange slot

theorem Sound.apply (sound : Sound shm) (tame : round.Tame) : Sound (apply host shm round) := by
  cases attached : shm.shmHead with
  | none =>
    rw [StrategyRound.apply,
      round.generator.updateStrategy_of_detached host round.env attached round.statMap]
    exact sound
  | some head =>
    rw [StrategyRound.apply,
      round.generator.updateStrategy_eq host round.env attached sound.ready round.statMap]
    refine ⟨sound.ready, fun board slot => ?_⟩
    rw [StrategyShm.publish]
    simp only [Function.update_apply]
    split
    · exact inRange_reset _ (sound.inRange _) slot
    · split
      · exact StrategyGenerator.inRange_publishedBy _ sound.ready tame.1 (sound.inRange _)
          (sound.inRange _) slot
      · exact sound.inRange board slot

theorem Sound.inRange_round (faithful : host.Faithful) (sound : Sound shm) (tame : round.Tame) :
    InRange host shm round := by
  refine ⟨fun x x_mem => ?_, fun head _ slot _ _ => (sound.apply tame).inRange _ slot⟩
  rw [StrategyGenerator.roundNarrows] at x_mem
  split at x_mem
  · simp at x_mem
  · next head attached =>
    rcases mem_append.mp x_mem with seen | fresh
    · obtain ⟨slot, text, stats, found, counted, narrowed⟩ :=
        StrategyGenerator.mem_boardNarrows round.env sound.ready _ (fun _ _ found => found)
          seen
      exact StrategyGenerator.fitsShort_of_narrows faithful tame.2 (sound.inRange _ slot)
        (tame.1 _ _ found) counted narrowed
    · obtain ⟨text, stats, found, counted, rfl⟩ := StrategyGenerator.mem_freshNarrows fresh
      have given := (round.generator.visits_rebuildSlot host round.env sound.ready).find?_of_walk
        found
      exact fitsShort_curPassRate (tame.1 _ _ given) counted

/-- Rounds whose counts do not overflow and whose weights are moderate publish percentages only and
convert no value that does not fit `short`. -/
theorem everyStep_inRange (faithful : host.Faithful) (ready : shm.shmHash.Ready StrategyShmInfo)
    (start : ∀ board slot, (shm.shmBody board slot).InRange) (rounds : List StrategyRound)
    (tame : ∀ round ∈ rounds, round.Tame) :
    Execution.EveryStep (apply host) (InRange host) shm rounds := by
  have sound : Sound shm := ⟨ready, start⟩
  clear ready start
  induction rounds generalizing shm with
  | nil => exact everyStep_nil _ _ _
  | cons round rounds ih =>
    obtain ⟨here, later⟩ := forall_mem_cons.mp tame
    exact (everyStep_cons _ _ _ _ _).mpr
      ⟨sound.inRange_round faithful here, ih later (sound.apply here)⟩

/-- Rounds with the configuration file of the name agent. -/
theorem everyStep_inRange_lbStrategyConf :
    Execution.EveryStep (apply exactHost) (InRange exactHost) emptyBoards
      [⟨.mc (McStrategyGenerator.load lbStrategyConf), roundAt100, echoStats⟩,
        ⟨.default, roundAt100, echoStats⟩] := by
  apply everyStep_inRange faithful_exactHost ready_emptyBoards
  · exact fun _ _ => inRange_zero
  · rw [forall_mem_cons, forall_mem_singleton]
    have moderate : (StrategyGenerator.mc (McStrategyGenerator.load lbStrategyConf)).Tame := by
      rw [StrategyGenerator.Tame]
      decide
    exact ⟨⟨bounded_echoStats, moderate⟩, ⟨bounded_echoStats, trivial⟩⟩

open McStrategyGenerator (ratedEntry passingStats floor_passingStats)

/-- Counts whose sum wraps around to 100. -/
def wrappedStats : ServerStats := ⟨300, 4294967096, 0, 0, 0, "echo", "10.0.0.1", 80⟩

theorem toInt_toShort_wrappedStats : (toShort wrappedStats.curPassRate).toInt = 300 := by
  have floor_eq : ⌊wrappedStats.curPassRate⌋ = 300 :=
    floor_curPassRate (by decide) (by decide)
  have nonneg : 0 ≤ wrappedStats.curPassRate := Int.floor_nonneg.mp (by omega)
  rw [toShort, if_pos nonneg, floor_eq]
  rfl

/-- A weight that multiplies a pass rate by 401. -/
def steepConfig : StrategyConfig :=
  McStrategyGenerator.load [("1000", [("100", 40000)])]

def passingBoards : StrategyShm :=
  { emptyBoards with
    shmBody := fun board slot => if board = 0 ∧ slot = 0 then ratedEntry 100 else zero }

theorem publishedBy_wrappedStats : publishedBy roundAt100 emptyBoards.shmHash
        (StrategyGenerator.default.rebuildSlot exactHost roundAt100 emptyBoards.shmHash)
        (fun _ => zero)
        ((∅ : StatMap).insert "10.0.0.1:80" wrappedStats, fun _ => zero) =
      Function.update (fun _ => zero)
        (HashLevel.slot ⟨0, 2⟩ (key (freshEntry roundAt100 wrappedStats)))
        (freshEntry roundAt100 wrappedStats) := by
  have visits := StrategyGenerator.default.visits_rebuildSlot exactHost roundAt100 ready_emptyBoards
  rw [publishedBy, visits.walk_of_vacant fun _ _ => rfl]
  rfl

theorem mem_roundNarrows_passingStats :
    40100 ∈ (StrategyGenerator.mc steepConfig).roundNarrows exactHost roundAt100 passingBoards
      ((∅ : StatMap).insert "10.0.0.1:80" passingStats) := by
  have found : McStrategyGenerator.lookUp steepConfig passingStats = some 40000 := by
    rw [McStrategyGenerator.lookUp, floor_passingStats]
    decide
  have narrowed :
      (StrategyGenerator.mc steepConfig).narrows exactHost passingStats (ratedEntry 100) =
        [40100] := by
    have product :
        McStrategyGenerator.scaled exactHost (ratedEntry 100).passRate 40000 = 40100 := by
      have rate : (ratedEntry 100).passRate.toInt = 100 := rfl
      have factor : (100 + 40000 : Int32).toInt = 40100 := rfl
      rw [McStrategyGenerator.scaled, rate, factor]
      norm_num [exactHost]
    rw [StrategyGenerator.narrows, if_neg (by decide), found]
    exact congrArg (fun x => [x]) product
  have seen : (StrategyGenerator.mc steepConfig).slotNarrows exactHost passingBoards.shmHash
      ((∅ : StatMap).insert "10.0.0.1:80" passingStats, passingBoards.shmBody 1) (ratedEntry 100) =
        [40100] := by
    rw [← narrowed]
    rfl
  refine mem_append_left _ (mem_append_left _ ?_)
  exact seen ▸ mem_singleton_self 40100

/-- Counts that wrap around publish a pass rate of 300, and a steep weight leaves the range of
`short` before the pass rate is clamped. -/
theorem not_everyStep_inRange :
    ¬ Execution.EveryStep (apply exactHost) (InRange exactHost) emptyBoards
        [⟨.default, roundAt100, (∅ : StatMap).insert "10.0.0.1:80" wrappedStats⟩] ∧
      ¬ Execution.EveryStep (apply exactHost) (InRange exactHost) passingBoards
        [⟨.mc steepConfig, roundAt100, (∅ : StatMap).insert "10.0.0.1:80" passingStats⟩] := by
  constructor
  · intro every
    have inRange := ((everyStep_cons _ _ _ _ _).mp every).1
    have applied : apply exactHost emptyBoards
        ⟨.default, roundAt100, (∅ : StatMap).insert "10.0.0.1:80" wrappedStats⟩ =
        emptyBoards.publish ⟨0, 0⟩ (Function.update (fun _ => zero)
          (HashLevel.slot ⟨0, 2⟩ (key (freshEntry roundAt100 wrappedStats)))
          (freshEntry roundAt100 wrappedStats)) := by
      rw [← publishedBy_wrappedStats, apply,
        StrategyGenerator.default.updateStrategy_eq exactHost roundAt100 rfl ready_emptyBoards]
      rfl
    have entry_eq : (apply exactHost emptyBoards
        ⟨.default, roundAt100, (∅ : StatMap).insert "10.0.0.1:80" wrappedStats⟩).shmBody 1
          (HashLevel.slot ⟨0, 2⟩ (key (freshEntry roundAt100 wrappedStats))) =
        freshEntry roundAt100 wrappedStats := by
      have new := StrategyShm.publish_shmBody_new emptyBoards ⟨0, 0⟩
      rw [applied]
      exact (congrFun (new _) _).trans (Function.update_self _ _ _)
    have bound : HashLevel.slot ⟨0, 2⟩ (key (freshEntry roundAt100 wrappedStats)) <
        slotNum emptyBoards.shmHash.levels :=
      (ready_emptyBoards.slot_bounds mem_cons_self _).2.trans (by decide)
    have published := inRange.published ⟨0, 1⟩ (by rw [applied]; rfl) _ bound
    rw [entry_eq] at published
    have outside := (published (Nat.succ_ne_zero 5)).2
    rw [show (freshEntry roundAt100 wrappedStats).passRate.toInt = 300 from
      toInt_toShort_wrappedStats] at outside
    omega
  · intro every
    have inRange := ((everyStep_cons _ _ _ _ _).mp every).1
    have fits := inRange.narrows 40100 mem_roundNarrows_passingStats
    norm_num [FitsShort] at fits

end StrategyRound
end McBrpc
