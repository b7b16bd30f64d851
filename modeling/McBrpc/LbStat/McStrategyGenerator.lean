import McBrpc.Library.OrderedMap
import McBrpc.LbStat.BoardRound

/-!
# The configured strategy generator

`McStrategyGenerator` moves the pass rate of an endpoint by a weight that it looks up in its
configuration.  The language leaves the result of an out-of-range conversion from `double` to
`short` open, so the machine is a parameter.
-/

namespace McBrpc

open DefaultStrategyGenerator Function

/-- The arithmetic of the machine: the rounding of `double` operations and the results of
out-of-range conversions to `short`. -/
structure Host where
  round : ℚ → ℚ
  overflowed : ℚ → Int16

/-- The values that `short` can hold after truncation. -/
def FitsShort (x : ℚ) : Prop := -32769 < x ∧ x < 32768

instance decidableFitsShort (x : ℚ) : Decidable (FitsShort x) :=
  inferInstanceAs (Decidable (_ ∧ _))

def Host.toShort (host : Host) (x : ℚ) : Int16 :=
  if FitsShort x then McBrpc.toShort x else host.overflowed x

/-- The weights by number of requests and measured pass rate. -/
abbrev StrategyConfig : Type := OrderedMap Nat (OrderedMap Nat Int32)

/-- A parsed configuration file: the members of an object of objects with integer members. -/
abbrev ConfigDocument : Type := List (String × List (String × Int32))

def leadingNat (chars : List Char) : Nat :=
  (chars.takeWhile Char.isDigit).foldl (fun value char => 10 * value + (char.toNat - '0'.toNat)) 0

/-- The function `strtoul` in base ten. -/
def strtoul (text : String) : Nat :=
  let chars := text.toList.dropWhile isSpace
  let negative := chars.head? = some '-'
  let value := leadingNat (if negative ∨ chars.head? = some '+' then chars.tail else chars)
  if 2 ^ 64 ≤ value then 2 ^ 64 - 1 else if negative then (2 ^ 64 - value) % 2 ^ 64 else value

namespace McStrategyGenerator

/-- The assignment `_strategy_config[req_cnt][pass_rate] = weight_incr`. -/
def setWeight (config : StrategyConfig) (reqCnt passRate : Nat) (weightIncr : Int32) :
    StrategyConfig :=
  config.alter reqCnt fun row => some ((row.getD ∅).alter passRate fun _ => some weightIncr)

/-- The configuration that the constructor reads from its file. -/
def load (document : ConfigDocument) : StrategyConfig :=
  document.foldl (fun config member =>
    member.2.foldl (fun config item =>
      setWeight config (strtoul member.1 % 2 ^ 32) (strtoul item.1 % 2 ^ 32) item.2) config) ∅

variable (host : Host) (config : StrategyConfig) (env : RoundEnv) (hash : MultiLevelHash)

def lookUp (stats : ServerStats) : Option Int32 :=
  (config.lowerBound stats.totalReqCnt.toNat).bind fun it1 =>
    (it1.2.lowerBound (⌊stats.curPassRate⌋ % 2 ^ 32).toNat).map Prod.snd

/-- The product `pass_rate * ((100 + weight_incr) / 100.0)`. -/
def scaled (passRate : Int16) (weightIncr : Int32) : ℚ :=
  host.round (passRate.toInt * host.round ((100 + weightIncr).toInt / 100))

/-- The entry of the backup board after its fields are set; `passRate` is that of the entry of the
current board. -/
def adjust (stats : ServerStats) (passRate : Int16) (backupInfo : StrategyShmInfo) :
    StrategyShmInfo :=
  let info := { backupInfo with curReqCnt := stats.totalReqCnt, strategyTime := env.now }
  if passRate = 0 then
    if 80 < stats.curPassRate then { info with passRate := info.passRate + 15 } else info
  else
    match lookUp config stats with
    | none => info
    | some weightIncr =>
      { info with
        passRate := max (min (host.toShort (scaled host info.passRate weightIncr)) 100) 0 }

/-- The body of the loop over the slots of the current board. -/
def rebuildSlot (state : RoundState) (shmInfo : StrategyShmInfo) : RoundState :=
  if shmInfo.keyLen = 0 then state
  else
    match shmInfo.key2EndPoint with
    | .error _ => state
    | .ok ep =>
      match state.1.find? (endpoint2str ep) with
      | some stats =>
        let statMap := state.1.erase (endpoint2str ep)
        if stats.totalReqCnt = 0 then
          (statMap, carryOver env hash shmInfo state.2)
        else
          match hash.insert state.2 shmInfo with
          | (backup, none) => (statMap, backup)
          | (backup, some slot) =>
            (statMap, update backup slot
              (adjust host config env stats shmInfo.passRate (backup slot)))
      | none => (state.1, carryOver env hash shmInfo state.2)

def updateStrategy (shm : StrategyShm) (statMap : StatMap) : Int × StrategyShm × StatMap :=
  match shm.shmHead with
  | none => (-1, shm, statMap)
  | some head =>
    let cur := head.curShmboardIdx
    match walkLevels shm.shmHash (rebuildSlot host config env shm.shmHash) (shm.shmBody cur)
      (List.range shm.shmHash.getMaxLevelNum) (statMap, shm.shmBody (cur + 1)) with
    | (0, statMap, backup) =>
      let state := statMap.entries.foldl
        (insertFresh env shm.shmHash) (statMap, backup)
      (0, { shm with
          shmHead := some { head with curShmboardIdx := cur + 1 }
          shmBody := update (update shm.shmBody (cur + 1) state.2) cur
            (shm.shmHash.reset (shm.shmBody cur)) },
        state.1)
    | (code, statMap, backup) =>
      (code, { shm with shmBody := update shm.shmBody (cur + 1) backup }, statMap)

end McStrategyGenerator

def lbStrategyConf : ConfigDocument :=
  [("200", [("30", -80), ("80", -30), ("99", -5), ("100", 80)]),
    ("500", [("50", -80), ("80", -50), ("99", -10), ("100", 70)]),
    ("1000", [("70", -80), ("99", -20), ("100", 50)]),
    ("2000", [("80", -80), ("99", -25), ("100", 40)]),
    ("5000", [("85", -80), ("99", -30), ("100", 30)]),
    ("10000", [("90", -80), ("99", -35), ("100", 20)])]

end McBrpc
