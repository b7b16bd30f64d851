import McBrpc.Library.Binary64
import McBrpc.Library.KeyedMap
import McBrpc.Library.ProbeRefill
import McBrpc.LbStat.StrategyShm

/-!
# The default strategy generator

A round of `DefaultStrategyGenerator` fills the backup board from the current board and the
statistics collected since the round before, switches the boards and empties the old one.
-/

namespace McBrpc

open Function

/-- The statistics of a round by the text of their endpoint, in the order of iteration. -/
abbrev StatMap : Type := KeyedMap String ServerStats

/-- The statistics that are left and the backup board. -/
abbrev RoundState : Type := StatMap × (Nat → StrategyShmInfo)

/-- What a round reads from outside: the clock, the flag `max_lb_strategy_live_time_s` and the
bytes of its local entry before they are set. -/
structure RoundEnv where
  now : UInt32
  maxLbStrategyLiveTimeS : UInt32
  uninitialized : ServerStats → StrategyShmInfo

namespace ServerStats

def totalReqCnt (stats : ServerStats) : UInt32 := stats.succCnt + stats.failCnt

/-- The expression `100 * (double)succ_cnt / total_req_cnt`. -/
def curPassRate (stats : ServerStats) : ℚ :=
  Binary64.round (Binary64.round (100 * stats.succCnt.toNat) / stats.totalReqCnt.toNat)

end ServerStats

/-- The conversion of a `double` to `short`, which truncates. -/
def toShort (x : ℚ) : Int16 :=
  Int16.ofInt (if 0 ≤ x then ⌊x⌋ else ⌈x⌉)

namespace DefaultStrategyGenerator

variable (env : RoundEnv) (hash : MultiLevelHash)

/-- The entry written for statistics of an endpoint. -/
def refresh (stats : ServerStats) (info : StrategyShmInfo) : StrategyShmInfo :=
  { info with
    curReqCnt := stats.totalReqCnt
    passRate := toShort stats.curPassRate
    strategyTime := env.now }

/-- An entry that has not expired is inserted as it is. -/
def carryOver (shmInfo : StrategyShmInfo) (backup : Nat → StrategyShmInfo) :
    Nat → StrategyShmInfo :=
  if env.now < shmInfo.strategyTime + env.maxLbStrategyLiveTimeS then
    (hash.insert backup shmInfo).1
  else backup

/-- The body of the loop over the slots of the current board. -/
def rebuildSlot (state : RoundState) (shmInfo : StrategyShmInfo) :
    RoundState :=
  if shmInfo.keyLen = 0 then state
  else
    match shmInfo.key2EndPoint with
    | .error _ => state
    | .ok ep =>
      match state.1.find? (endpoint2str ep) with
      | some stats =>
        let statMap := state.1.erase (endpoint2str ep)
        if stats.totalReqCnt ≠ 0 then
          match hash.insert state.2 shmInfo with
          | (backup, some slot) =>
            (statMap, update backup slot (refresh env stats (backup slot)))
          | (backup, none) => (statMap, carryOver env hash shmInfo backup)
        else (statMap, carryOver env hash shmInfo state.2)
      | none => (state.1, carryOver env hash shmInfo state.2)

def levelSlots (level : HashLevel) : List Nat :=
  (List.range level.itemNum).map fun k => level.hashTable + k

def rebuild (cur : Nat → StrategyShmInfo) :
    List Nat → RoundState → Int × RoundState
  | [], state => (0, state)
  | level :: levels, state =>
    match hash.getRawHashTable level with
    | (0, some table) =>
      rebuild cur levels
        ((levelSlots table).foldl (fun state k => rebuildSlot env hash state (cur k)) state)
    | _ => (-2, state)

/-- The entry of an endpoint that is not on the current board. -/
def freshEntry (stats : ServerStats) : StrategyShmInfo :=
  refresh env stats ((env.uninitialized stats).makeKey stats.ip stats.port)

/-- The body of the loop over the remaining statistics. -/
def insertFresh (state : RoundState) (it : Σ _ : String, ServerStats) :
    RoundState :=
  (state.1.erase it.1,
    if it.2.totalReqCnt ≠ 0 then (hash.insert state.2 (freshEntry env it.2)).1 else state.2)

def updateStrategy (shm : StrategyShm) (statMap : StatMap) : Int × StrategyShm × StatMap :=
  match shm.shmHead with
  | none => (-1, shm, statMap)
  | some head =>
    let cur := head.curShmboardIdx
    match rebuild env shm.shmHash (shm.shmBody cur) (List.range shm.shmHash.getMaxLevelNum)
      (statMap, shm.shmBody (cur + 1)) with
    | (0, statMap, backup) =>
      let state := statMap.entries.foldl (insertFresh env shm.shmHash) (statMap, backup)
      (0, { shm with
          shmHead := some { head with curShmboardIdx := cur + 1 }
          shmBody := update (update shm.shmBody (cur + 1) state.2) cur
            (shm.shmHash.reset (shm.shmBody cur)) },
        state.1)
    | (code, statMap, backup) =>
      (code, { shm with shmBody := update shm.shmBody (cur + 1) backup }, statMap)

end DefaultStrategyGenerator
end McBrpc
