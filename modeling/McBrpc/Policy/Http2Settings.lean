import McBrpc.Policy.Http2Frame

/-!
# Settings and flow-control windows

`H2Settings` with its reader and writer, and the window arithmetic of
`policy/http2_rpc_protocol.cpp`.
-/

namespace McBrpc.Http2

open BigEndian

def defaultInitialWindowSize : Nat := 65535

def maxWindowSize : Nat := 2 ^ 31 - 1

def defaultMaxFrameSize : Nat := 16384

def maxOfMaxFrameSize : Nat := 16777215

/-- `H2Settings`, with the values of its constructor. -/
structure H2Settings where
  headerTableSize : Nat := 4096
  enablePush : Bool := false
  maxConcurrentStreams : Nat := 2 ^ 32 - 1
  streamWindowSize : Nat := 256 * 1024
  connectionWindowSize : Nat := 1024 * 1024
  maxFrameSize : Nat := defaultMaxFrameSize
  maxHeaderListSize : Nat := 2 ^ 32 - 1
deriving DecidableEq, Repr

/-- `LoadUint8`, `LoadUint16` and `LoadUint32`: the value of so many bytes. -/
def loadUint (width : Nat) (it : List UInt8) : Nat := decode (it.take width)

/-- The values that `ParseH2Settings` refuses. -/
def ValidSetting (id value : Nat) : Prop :=
  (id = 0x2 → value ≤ 1) ∧ (id = 0x4 → value ≤ maxWindowSize) ∧
    (id = 0x5 → defaultMaxFrameSize ≤ value ∧ value ≤ maxOfMaxFrameSize)

instance (id value : Nat) : Decidable (ValidSetting id value) :=
  inferInstanceAs (Decidable (_ ∧ _ ∧ _))

/-- The body of the `switch`: an unknown identifier is ignored. -/
def H2Settings.set (out : H2Settings) (id value : Nat) : H2Settings :=
  match id with
  | 0x1 => { out with headerTableSize := value }
  | 0x2 => { out with enablePush := value != 0 }
  | 0x3 => { out with maxConcurrentStreams := value }
  | 0x4 => { out with streamWindowSize := value }
  | 0x5 => { out with maxFrameSize := value }
  | 0x6 => { out with maxHeaderListSize := value }
  | _ => out

/-- The pair at the iterator can be stored. -/
def ValidPair (it : List UInt8) : Prop := ValidSetting (loadUint 2 it) (loadUint 4 (it.drop 2))

instance (it : List UInt8) : Decidable (ValidPair it) :=
  inferInstanceAs (Decidable (ValidSetting _ _))

/-- What a reader of settings leaves: whether it succeeded, the settings and the iterator. -/
structure ParsedSettings where
  ok : Bool
  out : H2Settings
  it : List UInt8

/-- The loop of `ParseH2Settings` over so many pairs.  A pair that is refused has been read. -/
def parsePairs : Nat → H2Settings → List UInt8 → ParsedSettings
  | 0, out, it => ⟨true, out, it⟩
  | npairs + 1, out, it =>
    if ValidPair it then
      parsePairs npairs (out.set (loadUint 2 it) (loadUint 4 (it.drop 2))) (it.drop 6)
    else
      ⟨false, out, it.drop 6⟩

def parseH2Settings (out : H2Settings) (it : List UInt8) (n : Nat) : ParsedSettings :=
  if n / 6 * 6 ≠ n then ⟨false, out, it⟩ else parsePairs (n / 6) out it

/-- One pair of `SerializeH2Settings`, written when the value is not the assumed one. -/
def serializeSetting (id value assumed : Nat) : List UInt8 :=
  if value = assumed then [] else encode 2 id ++ encode 4 value

def serializeH2Settings (settings : H2Settings) : List UInt8 :=
  serializeSetting 0x1 settings.headerTableSize 4096 ++
    serializeSetting 0x2 settings.enablePush.toNat 1 ++
    serializeSetting 0x3 settings.maxConcurrentStreams (2 ^ 32 - 1) ++
    serializeSetting 0x4 settings.streamWindowSize defaultInitialWindowSize ++
    serializeSetting 0x5 settings.maxFrameSize defaultMaxFrameSize ++
    serializeSetting 0x6 settings.maxHeaderListSize (2 ^ 32 - 1)

def windowUpdateFrame (streamId increment : Nat) : Frame :=
  ⟨⟨4, .windowUpdate, 0, streamId⟩, encode 4 increment⟩

def serializeH2SettingsFrameAndWU (settings : H2Settings) : List Frame :=
  ⟨⟨(serializeH2Settings settings).length, .settings, 0, 0⟩, serializeH2Settings settings⟩ ::
    if defaultInitialWindowSize < settings.connectionWindowSize then
      [windowUpdateFrame 0 (settings.connectionWindowSize - defaultInitialWindowSize)]
    else
      []

/-- Bit 31 of an `int64_t`. -/
def bit31 (n : Int) : Prop := n / 2 ^ 31 % 2 = 1

/-- The test `n & (1 << 31)`: the mask is a negative `int`, so it holds every bit from 31 on. -/
def masked (n : Int) : Prop := n / 2 ^ 31 ≠ 0

/-- What `AddWindowSize` returns; the window takes the difference in any case. -/
def AddsWindowSize (before diff : Int) : Prop :=
  (¬ bit31 before ∧ ¬ bit31 diff → ¬ masked (before + diff)) ∧
    (bit31 before ∧ bit31 diff → masked (before + diff))

instance (n : Int) : Decidable (bit31 n) := inferInstanceAs (Decidable (_ = _))

instance (n : Int) : Decidable (masked n) := inferInstanceAs (Decidable (_ ≠ _))

instance (before diff : Int) : Decidable (AddsWindowSize before diff) :=
  inferInstanceAs (Decidable (_ ∧ _))

/-- How many pairs the loop reads: it stops behind the first one that it refuses. -/
def pairsRead : Nat → List UInt8 → Nat
  | 0, _ => 0
  | npairs + 1, it => if ValidPair it then pairsRead npairs (it.drop 6) + 1 else 1

variable (npairs : Nat)

theorem it_parsePairs (out : H2Settings) (it : List UInt8) :
    (parsePairs npairs out it).it = it.drop (6 * pairsRead npairs it) := by
  induction npairs generalizing out it with
  | zero => rfl
  | succ npairs ih =>
    rw [parsePairs, pairsRead]
    split
    · rw [ih, List.drop_drop]
      congr 1
      omega
    · rfl

theorem pairsRead_le (it : List UInt8) : pairsRead npairs it ≤ npairs := by
  induction npairs generalizing it with
  | zero => exact Nat.le_refl 0
  | succ npairs ih =>
    have later := ih (it.drop 6)
    rw [pairsRead]
    split <;> omega

theorem ok_parsePairs_iff (out : H2Settings) (it : List UInt8) :
    (parsePairs npairs out it).ok = true ↔ ∀ i < npairs, ValidPair (it.drop (6 * i)) := by
  induction npairs generalizing out it with
  | zero => simp [parsePairs]
  | succ npairs ih =>
    rw [parsePairs, Nat.forall_lt_succ_left]
    split
    · next valid => simp [ih, valid, List.drop_drop, Nat.mul_add, Nat.add_comm]
    · next invalid => simp [invalid]

theorem pairsRead_eq_iff (it : List UInt8) :
    pairsRead npairs it = npairs ↔ ∀ i, i + 1 < npairs → ValidPair (it.drop (6 * i)) := by
  induction npairs generalizing it with
  | zero => simp [pairsRead]
  | succ npairs ih =>
    have later : (∀ i, i + 1 < npairs → ValidPair ((it.drop 6).drop (6 * i))) ↔
        ∀ i, i + 1 < npairs → ValidPair (it.drop (6 * (i + 1))) := by
      simp only [List.drop_drop, Nat.mul_add, Nat.mul_one, Nat.add_comm]
    rw [pairsRead]
    split
    · next valid =>
      rw [Nat.add_right_cancel_iff, ih, later]
      constructor
      · intro valids i small
        cases i with
        | zero => exact valid
        | succ i => exact valids i (by omega)
      · intro valids i small
        exact valids (i + 1) (by omega)
    · next invalid =>
      constructor
      · intro single i small
        omega
      · intro valids
        by_contra several
        exact invalid (valids 0 (by omega))

end McBrpc.Http2
