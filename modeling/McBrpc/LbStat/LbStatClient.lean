import Mathlib.Data.UInt
import McBrpc.LbStat.StrategyShm
import McBrpc.Library.KeyedMap

/-!
# The statistics client

A process counts the outcomes of its calls for each service, address and port.  The report thread
takes the counts from time to time and hands them to the name agent in batches.
-/

namespace McBrpc

/-- The text of a string up to its first zero byte, which is what a format prints. -/
def cStr (text : String) : String := String.ofList (text.toList.takeWhile (· ≠ '\x00'))

/-- The conversion of `uint32_t` to `int`. -/
def intOfUint32 (value : UInt32) : Int := value.toInt32.toInt

/-- The conversion of `int` to `uint32_t`. -/
def uint32OfInt (value : Int) : UInt32 := (Int32.ofInt value).toUInt32

@[simp]
theorem uint32OfInt_intOfUint32 (value : UInt32) : uint32OfInt (intOfUint32 value) = value := by
  simp [uint32OfInt, intOfUint32]

theorem intOfUint32_uint32OfInt {value : Int} (low : -2 ^ 31 ≤ value) (high : value < 2 ^ 31) :
    intOfUint32 (uint32OfInt value) = value := by
  exact Int32.toInt_ofInt_of_le low high

inductive Counter
  | succCnt
  | failCnt
  | failNetCnt
  | failLogicCnt
  | usedMs
  deriving DecidableEq, Repr

structure AgentEndPoint where
  ip : String
  port : UInt32
  deriving DecidableEq, Repr

structure LbStatInfo where
  endpoint : AgentEndPoint
  serviceName : String
  succCnt : UInt32
  failCnt : UInt32
  failNetCnt : UInt32
  failLogicCnt : UInt32
  usedMs : UInt32
  deriving DecidableEq, Repr

structure LbStatReportReq where
  infos : List LbStatInfo
  deriving DecidableEq, Repr

def LbStatInfo.counts (info : LbStatInfo) : Counter → UInt32
  | .succCnt => info.succCnt
  | .failCnt => info.failCnt
  | .failNetCnt => info.failNetCnt
  | .failLogicCnt => info.failLogicCnt
  | .usedMs => info.usedMs

namespace ServerStats

def new : ServerStats := ⟨0, 0, 0, 0, 0, "", "", 0⟩

def counts (stats : ServerStats) : Counter → UInt32
  | .succCnt => stats.succCnt
  | .failCnt => stats.failCnt
  | .failNetCnt => stats.failNetCnt
  | .failLogicCnt => stats.failLogicCnt
  | .usedMs => stats.usedMs

/-- The counters of a message are added to an entry. -/
def addCounters (stats : ServerStats) (info : LbStatInfo) : ServerStats :=
  { stats with
    succCnt := stats.succCnt + info.succCnt
    failCnt := stats.failCnt + info.failCnt
    failNetCnt := stats.failNetCnt + info.failNetCnt
    failLogicCnt := stats.failLogicCnt + info.failLogicCnt
    usedMs := stats.usedMs + info.usedMs }

/-- The counters are taken away. -/
def clearCounters (stats : ServerStats) : ServerStats :=
  { stats with succCnt := 0, failCnt := 0, failNetCnt := 0, failLogicCnt := 0, usedMs := 0 }

def toInfo (stats : ServerStats) : LbStatInfo :=
  { endpoint := ⟨stats.ip, uint32OfInt stats.port⟩
    serviceName := stats.serviceName
    succCnt := stats.succCnt
    failCnt := stats.failCnt
    failNetCnt := stats.failNetCnt
    failLogicCnt := stats.failLogicCnt
    usedMs := stats.usedMs }

@[simp]
theorem counts_new : new.counts = 0 := by
  funext counter
  cases counter <;> rfl

@[simp]
theorem counts_addCounters (stats : ServerStats) (info : LbStatInfo) :
    (stats.addCounters info).counts = stats.counts + info.counts := by
  funext counter
  cases counter <;> rfl

@[simp]
theorem counts_clearCounters (stats : ServerStats) : stats.clearCounters.counts = 0 := by
  funext counter
  cases counter <;> rfl

@[simp]
theorem counts_toInfo (stats : ServerStats) : stats.toInfo.counts = stats.counts := by
  funext counter
  cases counter <;> rfl

end ServerStats

/-- The statistics of the process, the cache of each thread and the messages handed to the name
agent client.  A cached pointer is the key of the entry it points to, which never moves. -/
structure LbStatClient where
  key2stats : KeyedMap String ServerStats
  localStats : Nat → KeyedMap String String
  sent : List LbStatReportReq

namespace LbStatClient

/-- The key of `GetStatsByAddr`. -/
def statsKey (serviceName ip : String) (port : Int) : String :=
  cStr serviceName ++ "__" ++ cStr ip ++ ":" ++ toString port

variable (client : LbStatClient)

/-- The pointer to the entry of a key, from the cache of the thread or from the statistics. -/
def getStatsByAddr (thread : Nat) (serviceName ip : String) (port : Int) : LbStatClient × String :=
  let key := statsKey serviceName ip port
  match (client.localStats thread).find? key with
  | some stats => (client, stats)
  | none =>
    ({ client with
        key2stats := client.key2stats.modify key .new fun stats =>
          { stats with ip := ip, port := port, serviceName := serviceName }
        localStats := Function.update client.localStats thread
          ((client.localStats thread).insert key key) },
      key)

/-- The copies of the entries with counts, which are cleared; `order` is the order in which the
map lists its keys. -/
def collectStats :
    List String → KeyedMap String ServerStats → List ServerStats × KeyedMap String ServerStats
  | [], key2stats => ([], key2stats)
  | key :: order, key2stats =>
    match key2stats.find? key with
    | none => collectStats order key2stats
    | some item =>
      if item.succCnt + item.failCnt + item.failNetCnt + item.failLogicCnt = 0 then
        collectStats order key2stats
      else
        let (stats, key2stats) := collectStats order (key2stats.insert key item.clearCounters)
        (item :: stats, key2stats)

/-- A call of `LbStatReport` by a thread. -/
structure Call where
  thread : Nat
  serviceName : String
  endpoint : EndPoint
  ret : Int
  responsed : Bool
  costTime : Int

/-- The check at the start of `LbStatReport`. -/
def Call.Ignored (call : Call) : Prop :=
  call.endpoint.port ≤ 0 ∨ 65535 < call.endpoint.port ∨
    (ip2str call.endpoint.ip).toList.take 7 = "0.0.0.0".toList

instance (call : Call) : Decidable call.Ignored := inferInstanceAs (Decidable (_ ∨ _))

def Call.info (call : Call) : LbStatInfo :=
  let info : LbStatInfo :=
    { endpoint := ⟨ip2str call.endpoint.ip, uint32OfInt call.endpoint.port⟩
      serviceName := call.serviceName
      succCnt := 0
      failCnt := 0
      failNetCnt := 0
      failLogicCnt := 0
      usedMs := uint32OfInt call.costTime }
  if !call.responsed && call.ret ≠ 0 then { info with failCnt := 1, failNetCnt := 1 }
  else if call.responsed && call.ret ≠ 0 then { info with failCnt := 1, failLogicCnt := 1 }
  else { info with succCnt := 1 }

def lbStatReport (call : Call) : LbStatClient :=
  if call.Ignored then client
  else
    let info := call.info
    let (client, stats) := client.getStatsByAddr call.thread call.serviceName info.endpoint.ip
      (intOfUint32 info.endpoint.port)
    { client with key2stats := client.key2stats.modify stats .new (·.addCounters info) }

/-- The bound `pos + FLAGS_report_batch_num` of type `size_t`. -/
def batchEnd (reportBatchNum : Int32) (pos : Nat) : Nat :=
  ((pos + reportBatchNum.toInt) % 2 ^ 64).toNat

/-- The loop that fills a message: the infos, the index after the loop and the entries left. -/
def fillReq (bound : Nat) : Nat → List ServerStats → List LbStatInfo × Nat × List ServerStats
  | idx, [] => ([], idx, [])
  | idx, s :: stats =>
    if idx < bound then
      let (infos, next, rest) := fillReq bound (idx + 1) stats
      (s.toInfo :: infos, next, rest)
    else ([], idx, s :: stats)

/-- The loop over the messages of a round, with the entries from `idx` on. -/
def sendBatches (reportBatchNum : Int32) :
    (round idx pos : Nat) → List ServerStats → List LbStatReportReq
  | 0, _, _, _ => []
  | round + 1, idx, pos, stats =>
    let (infos, next, rest) := fillReq (batchEnd reportBatchNum pos) idx stats
    let sent := if 0 < infos.length then [⟨infos⟩] else []
    if rest = [] then sent else sent ++ sendBatches reportBatchNum round next next rest

def doLbReport (reportBatchNum : Int32) (order : List String) : LbStatClient :=
  let (stats, key2stats) := collectStats order client.key2stats
  { client with
    key2stats := key2stats
    sent := client.sent ++ sendBatches reportBatchNum 10 0 0 stats }

/-- A step of the process: a call is reported, or the report thread makes a round. -/
inductive Action
  | lbStatReport (call : Call)
  | doLbReport (reportBatchNum : Int32) (order : List String)

def initial : LbStatClient := ⟨∅, fun _ => ∅, []⟩

def step : Action → LbStatClient
  | .lbStatReport call => client.lbStatReport call
  | .doLbReport reportBatchNum order => client.doLbReport reportBatchNum order

end LbStatClient
end McBrpc
