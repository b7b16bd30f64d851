import Mathlib.Tactic.Ring
import McBrpc.Library.ProbeTable
import McBrpc.Library.Execution

/-!
# The multi-level hash

A `MultiLevelHash` divides a data area into levels, each half as large as the one before.  A key has
one slot per level; it is searched from level zero down and stored in the first slot that is
empty or already its own.  A slot is empty when its key has length zero, as in zeroed memory.
-/

namespace McBrpc

/-- The values kept in the slots: their key bytes, their size and the value of zeroed memory. -/
class HashSlot (Slot : Type) where
  key : Slot → List UInt8
  zero : Slot
  key_zero : key zero = []
  size : Nat

attribute [simp] HashSlot.key_zero

/-- The first slot of a level in the data area and the number of its slots. -/
structure HashLevel where
  hashTable : Nat
  itemNum : Nat
  deriving DecidableEq, Repr

/-- The hash object; the slots themselves are memory that several processes may share. -/
structure MultiLevelHash where
  levelNum : Nat
  itemNum : Nat
  dataPos : Nat
  dataLen : Nat
  levels : List HashLevel
  initDone : Bool
  deriving DecidableEq, Repr

def maxHashLevel : Nat := 20

def hashNotFound : Int := -2

def hashNotInit : Int := -1

def hashSuccess : Int := 0

/-- The hash of a string of signed characters, in unsigned 32-bit arithmetic. -/
def bkdrHash (str : List UInt8) (max : Nat) : Nat :=
  let hash := str.foldl (fun hash char => hash * 131 + char.toInt8.toInt32.toUInt32) (0 : UInt32)
  (hash &&& 0x7FFFFFFF).toNat % max

def HashLevel.slot (level : HashLevel) (key : List UInt8) : Nat :=
  level.hashTable + bkdrHash key level.itemNum

namespace MultiLevelHash

def slotNum (levels : List HashLevel) : Nat :=
  (levels.map HashLevel.itemNum).sum

theorem slotNum_cons (level : HashLevel) (levels : List HashLevel) :
    slotNum (level :: levels) = level.itemNum + slotNum levels :=
  List.sum_cons

/-- Levels from a slot on, each with half of the slots of the one before. -/
def layLevels : Nat → Nat → Nat → List HashLevel
  | 0, _, _ => []
  | count + 1, pos, curItemNum =>
    ⟨pos, curItemNum⟩ :: layLevels count (pos + curItemNum) (curItemNum / 2)

def new (dataPos dataLen itemNum levelNum : Nat) : MultiLevelHash where
  levelNum := levelNum
  itemNum := itemNum
  dataPos := dataPos
  dataLen := dataLen
  levels := []
  initDone := false

variable {Slot : Type} [HashSlot Slot]

variable (Slot) in
def init (hash : MultiLevelHash) : Int × MultiLevelHash :=
  let closed := { hash with initDone := false }
  if maxHashLevel < hash.levelNum ∨ hash.dataPos = 0 then (-1, closed)
  else
    let levels := layLevels hash.levelNum 0 hash.itemNum
    if hash.dataLen < slotNum levels * HashSlot.size Slot then (-2, { closed with levels })
    else (0, { closed with levels, initDone := true })

/-- The loop of `find`; `val` is the slot of the level before. -/
def findIn (slots : Nat → Slot) (key : List UInt8) : List HashLevel → Option Nat → Int × Option Nat
  | [], val => (hashNotFound, val)
  | level :: levels, _ =>
    let val := level.slot key
    if HashSlot.key (slots val) = [] then (hashNotFound, some val)
    else if HashSlot.key (slots val) = key then (hashSuccess, some val)
    else findIn slots key levels (some val)

variable (hash : MultiLevelHash)

variable (slots : Nat → Slot)

def find (key : List UInt8) : Int × Option Nat :=
  if hash.initDone then findIn slots key hash.levels none else (hashNotInit, none)

/-- The result of `find` and the value it points to. -/
def findValue (key : List UInt8) : Int × Option Slot :=
  match hash.find slots key with
  | (code, val) => (code, if code = hashSuccess then val.map slots else none)

/-- The slot that the loop of `insert` writes. -/
def insertIn (slots : Nat → Slot) (val : Slot) : List HashLevel → Option Nat
  | [] => none
  | level :: levels =>
    let inVal := level.slot (HashSlot.key val)
    if HashSlot.key (slots inVal) = [] ∨ HashSlot.key (slots inVal) = HashSlot.key val then
      some inVal
    else insertIn slots val levels

def insert (val : Slot) : (Nat → Slot) × Option Nat :=
  if hash.initDone then
    match insertIn slots val hash.levels with
    | some inVal => (Function.update slots inVal val, some inVal)
    | none => (slots, none)
  else (slots, none)

/-- The loop of `clear` that moves the values of the deeper levels up. -/
def moveUp (key : List UInt8) (slots : Nat → Slot) : HashLevel → List HashLevel → Nat → Slot
  | _, [] => slots
  | cur, next :: deeper =>
    let nextVal := next.slot key
    if HashSlot.key (slots nextVal) = [] then slots
    else moveUp key (Function.update slots (cur.slot key) (slots nextVal)) next deeper

/-- The loop of `clear` that looks for the key. -/
def clearIn (slots : Nat → Slot) (key : List UInt8) : List HashLevel → (Nat → Slot) × Int
  | [] => (slots, hashNotFound)
  | level :: deeper =>
    let val := level.slot key
    if HashSlot.key (slots val) = [] then (slots, hashNotFound)
    else if HashSlot.key (slots val) = key then
      (moveUp key (Function.update slots val HashSlot.zero) level deeper, hashSuccess)
    else clearIn slots key deeper

/-- The key is removed and the values of its deeper slots move up.  A hash without levels is left
out: the bound `_level_num - 1` of the second loop would wrap around. -/
def clear (key : List UInt8) : (Nat → Slot) × Int :=
  if hash.initDone then clearIn slots key hash.levels else (slots, hashNotInit)

def getRawHashTable (levelIdx : Nat) : Int × Option HashLevel :=
  if hash.levelNum ≤ levelIdx then (-1, none) else (0, hash.levels[levelIdx]?)

def getMaxLevelNum (hash : MultiLevelHash) : Nat := hash.levelNum

def reset : Nat → Slot :=
  if hash.initDone then
    fun slot => if (slot + 1) * HashSlot.size Slot ≤ hash.dataLen then HashSlot.zero else slots slot
  else slots
end MultiLevelHash
end McBrpc
