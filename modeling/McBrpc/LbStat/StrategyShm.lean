import McBrpc.Butil.EndPoint
import McBrpc.LbStat.HashLookup

/-!
# The shared strategy boards

The name agent publishes its load-balancing strategy on two boards in shared memory.  A board is a
multi-level hash of `StrategyShmInfo`; the head of the segment says which board is current.
-/

namespace McBrpc

open MultiLevelHash UInt8

structure ServerStats where
  succCnt : UInt32
  failCnt : UInt32
  failNetCnt : UInt32
  failLogicCnt : UInt32
  usedMs : UInt32
  serviceName : String
  ip : String
  port : Int
  deriving DecidableEq, Repr

/-- The eight bytes of a key: an address, a port in little-endian order and two unused bytes. -/
structure ShmKey where
  ip : Ip
  portLow : UInt8
  portHigh : UInt8
  unused : UInt8 × UInt8
  deriving DecidableEq, Repr

def ShmKey.bytes (key : ShmKey) : List UInt8 :=
  [key.ip.first, key.ip.second, key.ip.third, key.ip.fourth, key.portLow, key.portHigh,
    key.unused.1, key.unused.2]

/-- A strategy entry.  The key length is zero in an empty slot and six after `makeKey`. -/
structure StrategyShmInfo where
  key : ShmKey
  keyLen : Nat
  keyLen_eq : keyLen = 0 ∨ keyLen = 6
  passRate : Int16
  period : Int16
  curReqCnt : UInt32
  strategyTime : UInt32
  deriving DecidableEq

def portLow (port : Int) : UInt8 := ofNat (port % 256).toNat

/-- The high byte of a port converted to `short`. -/
def portHigh (port : Int) : UInt8 := ofNat (port / 256 % 256).toNat

namespace StrategyShmInfo

/-- An address that does not parse leaves the bytes of the key as they are. -/
def makeKey (info : StrategyShmInfo) (ipStr : String) (port : Int) : StrategyShmInfo :=
  { info with
    key := { info.key with
      ip := (str2ip ipStr).getD info.key.ip
      portLow := McBrpc.portLow port
      portHigh := McBrpc.portHigh port }
    keyLen := 6
    keyLen_eq := .inr rfl }

def key2EndPoint (info : StrategyShmInfo) : Except Int EndPoint :=
  if info.keyLen = 0 then .error (-1)
  else
    let port : Int := info.key.portLow.toNat + 256 * info.key.portHigh.toNat
    if port < 0 ∨ 65535 < port then .error (-2) else .ok ⟨info.key.ip, port⟩

instance : HashSlot StrategyShmInfo where
  key info := info.key.bytes.take info.keyLen
  zero := ⟨⟨⟨0, 0, 0, 0⟩, 0, 0, 0, 0⟩, 0, .inl rfl, 0, 0, 0, 0⟩
  key_zero := rfl
  size := 52

end StrategyShmInfo

/-- The two boards are indexed by `Fin 2`. -/
instance boardNumNeZero : NeZero 2 := ⟨by decide⟩

structure StrategyShmHead where
  magicNum : Int
  curShmboardIdx : Fin 2
  deriving DecidableEq, Repr

theorem other_board_ne (board : Fin 2) : board + 1 ≠ board := by
  revert board
  decide

theorem other_board_other (board : Fin 2) : board + 1 + 1 = board := by
  revert board
  decide

/-- The attached segment.  The hashes of the two boards differ in their data position only, and
one object stands for both. -/
structure StrategyShm where
  shmHead : Option StrategyShmHead
  shmHash : MultiLevelHash
  shmBody : Fin 2 → Nat → StrategyShmInfo

/-- The shared memory itself, which outlives the processes attached to it. -/
structure StrategySegment where
  head : StrategyShmHead
  body : Fin 2 → Nat → StrategyShmInfo

def lbStrategyShmMagic : Int := 0x3941591

def lbStrategyHashItems : Nat := 250000

def strategyHash (dataPos : Nat) : MultiLevelHash :=
  (new dataPos (lbStrategyHashItems * 2 * HashSlot.size StrategyShmInfo)
    lbStrategyHashItems 4).init StrategyShmInfo |>.2

/-- A segment without the magic number is cleared. -/
def attachAndCreateShm (segment : StrategySegment) : StrategySegment :=
  if segment.head.magicNum ≠ lbStrategyShmMagic then
    ⟨⟨lbStrategyShmMagic, 0⟩, fun _ _ => HashSlot.zero⟩
  else segment

/-- The initialisation in the role of the name agent. -/
def StrategyShm.init (dataPos : Nat) (segment : StrategySegment) : StrategyShm :=
  ⟨some (attachAndCreateShm segment).head, strategyHash dataPos, (attachAndCreateShm segment).body⟩

variable {dataPos : Nat}

theorem init_strategyHash (attached : dataPos ≠ 0) :
    (new dataPos (lbStrategyHashItems * 2 * HashSlot.size StrategyShmInfo)
        lbStrategyHashItems 4).init StrategyShmInfo =
      (0, ⟨4, 250000, dataPos, 26000000,
        [⟨0, 250000⟩, ⟨250000, 125000⟩, ⟨375000, 62500⟩, ⟨437500, 31250⟩], true⟩) := by
  rw [init_eq_zero]
  · simp [new, lbStrategyHashItems, layLevels, HashSlot.size]
  · show 4 ≤ maxHashLevel
    decide
  · exact attached
  · show slotNum (layLevels 4 0 lbStrategyHashItems) * 52 ≤
      lbStrategyHashItems * 2 * 52
    decide

theorem strategyHash_eq (attached : dataPos ≠ 0) :
    strategyHash dataPos = ⟨4, 250000, dataPos, 26000000,
      [⟨0, 250000⟩, ⟨250000, 125000⟩, ⟨375000, 62500⟩, ⟨437500, 31250⟩], true⟩ :=
  congrArg Prod.snd (init_strategyHash attached)

/-- The entry that `find` reads on a board. -/
def StrategyShm.entry (shm : StrategyShm) (board : Fin 2) (key : List UInt8) :
    Option StrategyShmInfo :=
  (shm.shmHash.findValue (shm.shmBody board) key).2

theorem StrategyShm.entry_eq {hash : MultiLevelHash} (ready : hash.Ready StrategyShmInfo)
    (shmHead : Option StrategyShmHead) (shmBody : Fin 2 → Nat → StrategyShmInfo) (board : Fin 2) :
    StrategyShm.entry ⟨shmHead, hash, shmBody⟩ board = ready.table.lookup (shmBody board) := by
  funext key
  rw [entry, ready.findValue_eq]

def endPointKey (ip : Ip) (port : Nat) : List UInt8 :=
  [ip.first, ip.second, ip.third, ip.fourth, portLow port, portHigh port]

namespace StrategyShmInfo

def port (info : StrategyShmInfo) : Nat :=
  info.key.portLow.toNat + 256 * info.key.portHigh.toNat

variable (info : StrategyShmInfo)
include info

theorem port_lt : info.port < 65536 := by
  have low := info.key.portLow.toNat_lt
  have high := info.key.portHigh.toNat_lt
  rw [port]
  omega

theorem portLow_port : portLow info.port = info.key.portLow := by
  have low := info.key.portLow.toNat_lt
  have value : ((info.port : Int) % 256).toNat = info.key.portLow.toNat := by
    rw [port]
    omega
  rw [portLow, value, UInt8.ofNat_toNat]

theorem portHigh_port : portHigh info.port = info.key.portHigh := by
  have low := info.key.portLow.toNat_lt
  have high := info.key.portHigh.toNat_lt
  have value : ((info.port : Int) / 256 % 256).toNat = info.key.portHigh.toNat := by
    rw [port]
    omega
  rw [portHigh, value, UInt8.ofNat_toNat]

theorem key_eq_nil_iff : HashSlot.key info = [] ↔ info.keyLen = 0 := by
  rcases info.keyLen_eq with empty | full
  · simp [HashSlot.key, empty]
  · simp [HashSlot.key, full, ShmKey.bytes]

theorem key_eq_endPointKey (used : info.keyLen ≠ 0) :
    HashSlot.key info = endPointKey info.key.ip info.port := by
  have full := info.keyLen_eq.resolve_left used
  rw [endPointKey, portLow_port, portHigh_port]
  simp [HashSlot.key, full, ShmKey.bytes]

theorem key2EndPoint_eq (used : info.keyLen ≠ 0) :
    info.key2EndPoint = .ok ⟨info.key.ip, info.port⟩ := by
  have bound := info.port_lt
  rw [port] at bound
  rw [key2EndPoint, if_neg used]
  rw [if_neg (by omega)]
  rfl

end StrategyShmInfo

theorem portLow_portHigh {port : Nat} (bound : port < 65536) :
    (portLow port).toNat + 256 * (portHigh port).toNat = port := by
  rw [portLow, portHigh, toNat_ofNat', toNat_ofNat']
  omega

theorem endPointKey_injective {ip ip' : Ip} {port port' : Nat} (bound : port < 65536)
    (bound' : port' < 65536) (same : endPointKey ip port = endPointKey ip' port') :
    ip = ip' ∧ port = port' := by
  obtain ⟨first, second, third, fourth⟩ := ip
  simp only [endPointKey, List.cons.injEq, and_true] at same
  obtain ⟨rfl, rfl, rfl, rfl, low, high⟩ := same
  refine ⟨rfl, ?_⟩
  rw [← portLow_portHigh bound, low, high, portLow_portHigh bound']

end McBrpc
