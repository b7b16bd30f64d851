import Mathlib.Algebra.Group.Int.Defs
import McBrpc.Library.BigEndian

/-!
# HTTP/2 frames

The frame head of `policy/http2_rpc_protocol.cpp`: nine bytes with the payload length, the frame
type, the flags and the stream.  `SerializeFrameHead` writes it and `ConsumeFrameHead` reads it.
-/

namespace McBrpc.Http2

open BigEndian

inductive H2FrameType where
  | data
  | headers
  | priority
  | rstStream
  | settings
  | pushPromise
  | ping
  | goaway
  | windowUpdate
  | continuation
deriving DecidableEq, Repr

/-- The value of the enumerator, which is the byte on the wire. -/
def H2FrameType.code : H2FrameType → UInt8
  | .data => 0x0
  | .headers => 0x1
  | .priority => 0x2
  | .rstStream => 0x3
  | .settings => 0x4
  | .pushPromise => 0x5
  | .ping => 0x6
  | .goaway => 0x7
  | .windowUpdate => 0x8
  | .continuation => 0x9

/-- The type of a byte; `FindFrameHandler` has no handler above `H2_FRAME_TYPE_MAX`. -/
def H2FrameType.ofCode? (byte : UInt8) : Option H2FrameType :=
  match byte.toNat with
  | 0 => some .data
  | 1 => some .headers
  | 2 => some .priority
  | 3 => some .rstStream
  | 4 => some .settings
  | 5 => some .pushPromise
  | 6 => some .ping
  | 7 => some .goaway
  | 8 => some .windowUpdate
  | 9 => some .continuation
  | _ => none

@[simp]
theorem H2FrameType.ofCode?_code (type : H2FrameType) : ofCode? type.code = some type := by
  cases type <;> rfl

def flagsEndStream : UInt8 := 0x1

def flagsAck : UInt8 := 0x1

def flagsEndHeaders : UInt8 := 0x4

def flagsPadded : UInt8 := 0x8

def flagsPriority : UInt8 := 0x20

structure H2FrameHead where
  payloadSize : Nat
  type : H2FrameType
  flags : UInt8
  streamId : Nat
deriving DecidableEq, Repr

/-- The test `frame_head.flags & flag`. -/
def H2FrameHead.has (head : H2FrameHead) (flag : UInt8) : Bool := head.flags &&& flag != 0

def frameHeadSize : Nat := 9

/-- `SerializeFrameHead`: three bytes hold the length. -/
def serializeFrameHead (head : H2FrameHead) : List UInt8 :=
  encode 3 head.payloadSize ++
    (head.type.code :: head.flags :: encode 4 head.streamId)

/-- `ParseError`, as far as `H2Context::Consume` returns it. -/
inductive ParseError where
  | notEnoughData
  | tryOthers
  | absolutelyWrong
  | noResource
deriving DecidableEq, Repr

/-- The type, the flags and the stream, behind a length that was accepted.  A type that has no
handler makes `Consume` return the error of an invalid stream. -/
def readTypeAndStream (length : Nat) : List UInt8 → Except ParseError (H2FrameHead × List UInt8)
  | type :: flags :: s0 :: s1 :: s2 :: s3 :: payload =>
    if 2 ^ 31 ≤ decode [s0, s1, s2, s3] then
      .error .absolutelyWrong
    else
      match H2FrameType.ofCode? type with
      | some type => .ok (⟨length, type, flags, decode [s0, s1, s2, s3]⟩, payload)
      | none => .error .absolutelyWrong
  | _ => .error .notEnoughData

/-- `H2Context::ConsumeFrameHead`, with the handler lookup of `Consume`.  A head is read only when
its payload is there. -/
def consumeFrameHead (maxFrameSize : Nat) : List UInt8 →
    Except ParseError (H2FrameHead × List UInt8)
  | b0 :: b1 :: b2 :: rest =>
    if maxFrameSize < decode [b0, b1, b2] then
      .error .absolutelyWrong
    else if rest.length < frameHeadSize - 3 + decode [b0, b1, b2] then
      .error .notEnoughData
    else
      readTypeAndStream (decode [b0, b1, b2]) rest
  | _ => .error .notEnoughData

variable {it rest : List UInt8} {head : H2FrameHead} {maxFrameSize : Nat}

theorem readTypeAndStream_ok {length : Nat}
    (read : readTypeAndStream length it = .ok (head, rest)) :
    rest = it.drop 6 ∧ head.payloadSize = length := by
  unfold readTypeAndStream at read
  split at read
  · split at read
    · simp at read
    · split at read
      · simp only [Except.ok.injEq, Prod.mk.injEq] at read
        obtain ⟨rfl, rfl⟩ := read
        exact ⟨rfl, rfl⟩
      · simp at read
  · simp at read

section

variable (read : consumeFrameHead maxFrameSize it = .ok (head, rest))
include read

theorem consumeFrameHead_ok :
    rest = it.drop frameHeadSize ∧ frameHeadSize + head.payloadSize ≤ it.length := by
  unfold consumeFrameHead at read
  split at read
  · next b0 b1 b2 behind =>
    split at read
    · simp at read
    · split at read
      · simp at read
      · next present =>
        obtain ⟨rest_eq, size_eq⟩ := readTypeAndStream_ok read
        simp only [frameHeadSize, List.length_cons, Nat.not_lt] at present ⊢
        exact ⟨rest_eq, by omega⟩
  · simp at read

theorem payloadSize_lt_of_consumeFrameHead : head.payloadSize < 2 ^ 24 := by
  unfold consumeFrameHead at read
  split at read
  · next b0 b1 b2 behind =>
    split at read
    · simp at read
    · split at read
      · simp at read
      · rw [(readTypeAndStream_ok read).2]
        have bound : decode [b0, b1, b2] < 256 ^ 3 := decode_lt [b0, b1, b2]
        exact Nat.lt_of_lt_of_eq bound (by decide)
  · simp at read

end

/-- A frame: its head and the bytes appended behind it. -/
structure Frame where
  head : H2FrameHead
  payload : List UInt8
deriving DecidableEq, Repr

def Frame.serialize (frame : Frame) : List UInt8 := serializeFrameHead frame.head ++ frame.payload

/-- The head of a frame that fits its fields is read back, and what stands behind it is left. -/
theorem consumeFrameHead_serialize {frame : Frame}
    (present : frame.head.payloadSize = frame.payload.length)
    (size_lt : frame.head.payloadSize < 2 ^ 24) (stream_lt : frame.head.streamId < 2 ^ 31)
    (fits : frame.head.payloadSize ≤ maxFrameSize) (behind : List UInt8) :
    consumeFrameHead maxFrameSize (frame.serialize ++ behind) =
      .ok (frame.head, frame.payload ++ behind) := by
  have size_eq : decode (encode 3 frame.head.payloadSize) = frame.head.payloadSize :=
    decode_encode_of_lt size_lt
  have stream_eq : decode (encode 4 frame.head.streamId) = frame.head.streamId :=
    decode_encode_of_lt (Nat.lt_trans stream_lt (by decide))
  simp only [encode] at size_eq stream_eq
  simp only [Frame.serialize, serializeFrameHead, encode, List.cons_append,
    List.nil_append, consumeFrameHead, readTypeAndStream, size_eq, stream_eq,
    H2FrameType.ofCode?_code, List.length_cons, List.length_append, frameHeadSize]
  rw [if_neg (by omega), if_neg (by omega), if_neg (by omega)]

theorem consumeFrameHead_serialize_data :
    consumeFrameHead 16384
        (Frame.serialize ⟨⟨300, .data, 1, 0x1020304⟩, .replicate 300 9⟩ ++ [7]) =
      .ok (⟨300, .data, 1, 0x1020304⟩, .replicate 300 9 ++ [7]) :=
  consumeFrameHead_serialize (List.length_replicate ..).symm (by decide) (by decide) (by decide) [7]

end McBrpc.Http2
