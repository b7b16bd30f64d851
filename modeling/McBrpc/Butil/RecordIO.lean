import McBrpc.Library.BigEndian
import McBrpc.Library.ByteSource
import McBrpc.Butil.IOBufCutter

/-!
# Records in a byte stream

A record is `RDIO`, a 32-bit word with the size of the data and a bit that says whether metas
follow, an 8-bit checksum of that word, then the named metas and the payload.  The reader cuts
records from the front of its buffer and after an invalid one goes on at the next `RDIO`.
-/

namespace McBrpc
namespace RecordIO

/-- A record.  `MutableMeta` is the only way to add a meta: names are distinct, not empty and not
longer than `MAX_NAME_SIZE`. -/
structure Record where
  payload : List UInt8
  metas : List (List UInt8 × List UInt8)
  distinct : (metas.map Prod.fst).Nodup
  named : ∀ name ∈ metas.map Prod.fst, name ≠ [] ∧ name.length ≤ 256
deriving DecidableEq

namespace Record

/-- The record after `Clear`. -/
def empty : Record where
  payload := []
  metas := []
  distinct := by simp
  named := by simp

/-- `MutableMeta` with `null_on_found`: the record with a new meta, by the data put into it. -/
def mutableMeta (rec : Record) (name : List UInt8) : Option (List UInt8 → Record) :=
  if fresh : name ∉ rec.metas.map Prod.fst ∧ name.length ≤ 256 ∧ name ≠ [] then
    some fun data =>
      { payload := rec.payload
        metas := rec.metas ++ [(name, data)]
        distinct := by
          rw [List.map_append, List.map_singleton, List.nodup_append]
          refine ⟨rec.distinct, by simp, fun other member last isLast same => fresh.1 ?_⟩
          rw [same, List.mem_singleton.mp isLast] at member
          exact member
        named := by
          intro other member
          rw [List.map_append, List.mem_append, List.map_singleton, List.mem_singleton] at member
          rcases member with member | rfl
          · exact rec.named other member
          · exact ⟨fresh.2.2, fresh.2.1⟩ }
  else none

def metaSize (entry : List UInt8 × List UInt8) : Nat := 5 + entry.1.length + entry.2.length

def byteSize (rec : Record) : Nat := 9 + rec.payload.length + (rec.metas.map metaSize).sum

end Record

/-- `BRPC_RECORDIO_MAGIC`: the letters `RDIO`. -/
def recordMagic : List UInt8 := [82, 68, 73, 79]

def crc8Table : List UInt8 := [
  0xea, 0xd4, 0x96, 0xa8, 0x12, 0x2c, 0x6e, 0x50, 0x7f, 0x41, 0x03, 0x3d, 0x87, 0xb9, 0xfb, 0xc5,
  0xa5, 0x9b, 0xd9, 0xe7, 0x5d, 0x63, 0x21, 0x1f, 0x30, 0x0e, 0x4c, 0x72, 0xc8, 0xf6, 0xb4, 0x8a,
  0x74, 0x4a, 0x08, 0x36, 0x8c, 0xb2, 0xf0, 0xce, 0xe1, 0xdf, 0x9d, 0xa3, 0x19, 0x27, 0x65, 0x5b,
  0x3b, 0x05, 0x47, 0x79, 0xc3, 0xfd, 0xbf, 0x81, 0xae, 0x90, 0xd2, 0xec, 0x56, 0x68, 0x2a, 0x14,
  0xb3, 0x8d, 0xcf, 0xf1, 0x4b, 0x75, 0x37, 0x09, 0x26, 0x18, 0x5a, 0x64, 0xde, 0xe0, 0xa2, 0x9c,
  0xfc, 0xc2, 0x80, 0xbe, 0x04, 0x3a, 0x78, 0x46, 0x69, 0x57, 0x15, 0x2b, 0x91, 0xaf, 0xed, 0xd3,
  0x2d, 0x13, 0x51, 0x6f, 0xd5, 0xeb, 0xa9, 0x97, 0xb8, 0x86, 0xc4, 0xfa, 0x40, 0x7e, 0x3c, 0x02,
  0x62, 0x5c, 0x1e, 0x20, 0x9a, 0xa4, 0xe6, 0xd8, 0xf7, 0xc9, 0x8b, 0xb5, 0x0f, 0x31, 0x73, 0x4d,
  0x58, 0x66, 0x24, 0x1a, 0xa0, 0x9e, 0xdc, 0xe2, 0xcd, 0xf3, 0xb1, 0x8f, 0x35, 0x0b, 0x49, 0x77,
  0x17, 0x29, 0x6b, 0x55, 0xef, 0xd1, 0x93, 0xad, 0x82, 0xbc, 0xfe, 0xc0, 0x7a, 0x44, 0x06, 0x38,
  0xc6, 0xf8, 0xba, 0x84, 0x3e, 0x00, 0x42, 0x7c, 0x53, 0x6d, 0x2f, 0x11, 0xab, 0x95, 0xd7, 0xe9,
  0x89, 0xb7, 0xf5, 0xcb, 0x71, 0x4f, 0x0d, 0x33, 0x1c, 0x22, 0x60, 0x5e, 0xe4, 0xda, 0x98, 0xa6,
  0x01, 0x3f, 0x7d, 0x43, 0xf9, 0xc7, 0x85, 0xbb, 0x94, 0xaa, 0xe8, 0xd6, 0x6c, 0x52, 0x10, 0x2e,
  0x4e, 0x70, 0x32, 0x0c, 0xb6, 0x88, 0xca, 0xf4, 0xdb, 0xe5, 0xa7, 0x99, 0x23, 0x1d, 0x5f, 0x61,
  0x9f, 0xa1, 0xe3, 0xdd, 0x67, 0x59, 0x1b, 0x25, 0x0a, 0x34, 0x76, 0x48, 0xf2, 0xcc, 0x8e, 0xb0,
  0xd0, 0xee, 0xac, 0x92, 0x28, 0x16, 0x54, 0x6a, 0x45, 0x7b, 0x39, 0x07, 0xbd, 0x83, 0xc1, 0xff]

def crc8Step (crc : UInt8) (byte : Nat) : UInt8 :=
  crc8Table.getD (crc ^^^ UInt8.ofNat byte).toNat 0

/-- `SizeChecksum`: the bytes of the word, the lowest first. -/
def sizeChecksum (input : Nat) : UInt8 :=
  [input, input / 2 ^ 8, input / 2 ^ 16, input / 2 ^ 24].foldl crc8Step 0

/-- A size in the lower 31 bits and a flag in the highest bit. -/
def flaggedSize (flag : Bool) (size : Nat) : Nat := size % 2 ^ 31 + if flag then 2 ^ 31 else 0

/-- One meta as `WriteWithoutFlush` appends it; the byte in front holds the low bits of the size of
the name. -/
def writeMeta (more : Bool) (entry : List UInt8 × List UInt8) : List UInt8 :=
  UInt8.ofNat entry.1.length :: entry.1 ++
    BigEndian.encode 4 (flaggedSize more entry.2.length) ++ entry.2

/-- The metas of a record, `none` when one of them is too long. -/
def writeMetas : List (List UInt8 × List UInt8) → Option (List UInt8)
  | [] => some []
  | entry :: rest =>
    if 256 < entry.1.length then none
    else if 2 ^ 31 ≤ entry.2.length then none
    else (writeMetas rest).map (writeMeta (!rest.isEmpty) entry ++ ·)

/-- `WriteWithoutFlush`: the buffer behind it, `none` when it returns -1 and takes back what it
appended. -/
def writeWithoutFlush (buf : List UInt8) (rec : Record) : Option (List UInt8) :=
  match writeMetas rec.metas with
  | none => none
  | some metas =>
    let data := metas ++ rec.payload
    if 2 ^ 31 ≤ data.length then none
    else
      let tmp := flaggedSize (!rec.metas.isEmpty) data.length
      some (buf ++ (recordMagic ++ BigEndian.encode 4 tmp ++ [sizeChecksum tmp] ++ data))

section Cutting

variable {σ : Type} [ByteSource σ]

open ByteSource BigEndian

/-- The return value of `CutRecord`. -/
inductive Outcome where
  | notEnough
  | invalid
  | record (rec : Record)
deriving DecidableEq

/-- A call of `CutRecord`, with the source and `_ncut` behind it. -/
structure Cut (σ : Type) where
  outcome : Outcome
  source : σ
  ncut : Nat

/-- The metas cut by `CutRecord` and the bytes they take, `none` when it returns -1. -/
structure MetasCut (σ : Type) where
  result : Option (Record × Nat)
  source : σ
  ncut : Nat

structure MetaHead (σ : Type) where
  nameSize : Nat
  name : List UInt8
  tmp : Nat
  source : σ

/-- The head of a meta as the loop of `CutRecord` cuts it: where the buffer ends early the name is
shorter than its size, and the word keeps the bytes it has in (little-endian) memory. -/
def cutMetaHead (tmp : Nat) (source : σ) : MetaHead σ :=
  let size := cut1 source
  let nameSize := (size.1.getD 0).toNat
  let name := cutn size.2 nameSize
  let word := cutn name.2 4
  { nameSize
    name := name.1
    tmp := decode (word.1 ++ (BigEndian.encode 4 tmp).reverse.drop word.1.length)
    source := word.2 }

/-- The loop over the metas, run when `has_meta` is set.  Each round consumes bytes of the data, so
that more rounds than bytes never happen. -/
def cutMetas (dataSize : Nat) : Nat → Nat → Nat → Record → σ → Nat → MetasCut σ
  | 0, _, _, _, source, ncut => { result := none, source, ncut }
  | fuel + 1, tmp, consumed, rec, source, ncut =>
    let head := cutMetaHead tmp source
    let metaSize := head.tmp % 2 ^ 31
    let ncut := ncut + (5 + head.nameSize)
    if dataSize < consumed + 5 + head.nameSize + metaSize then
      { result := none, source := head.source, ncut }
    else
      match rec.mutableMeta head.name with
      | none => { result := none, source := head.source, ncut }
      | some withMeta =>
        let data := cutn head.source metaSize
        let consumed := consumed + (5 + head.nameSize + metaSize)
        if 2 ^ 31 ≤ head.tmp then
          cutMetas dataSize fuel head.tmp consumed (withMeta data.1) data.2 (ncut + metaSize)
        else
          { result := some (withMeta data.1, consumed)
            source := data.2
            ncut := ncut + metaSize }

/-- What `CutRecord` makes of the nine bytes in front of a record. -/
inductive Head where
  | invalid
  | valid (tmp : Nat)
deriving DecidableEq

/-- The checks of `CutRecord` on the nine bytes. -/
def readHead (maxRecordSize : Nat) (headbuf : List UInt8) : Head :=
  let tmp := decode ((headbuf.drop 4).take 4)
  if headbuf.take 4 ≠ recordMagic then .invalid
  else if sizeChecksum tmp ≠ (headbuf.drop 8).headD 0 then .invalid
  else if maxRecordSize < tmp % 2 ^ 31 then .invalid
  else .valid tmp

/-- The metas of a record, if the word in front of it announces any. -/
def cutAnnouncedMetas (tmp : Nat) (source : σ) (ncut : Nat) : MetasCut σ :=
  if 2 ^ 31 ≤ tmp then cutMetas (tmp % 2 ^ 31) (tmp % 2 ^ 31 + 1) tmp 0 .empty source ncut
  else { result := some (.empty, 0), source, ncut }

/-- The rest of `CutRecord` once the whole record is there: the metas and the payload. -/
def cutBody (tmp : Nat) (source : σ) (ncut : Nat) : Cut σ :=
  let metas := cutAnnouncedMetas tmp (popFront source 9) (ncut + 9)
  match metas.result with
  | none => { outcome := .invalid, source := metas.source, ncut := metas.ncut }
  | some (rec, consumed) =>
    let payload := cutn metas.source (tmp % 2 ^ 31 - consumed)
    { outcome := .record { rec with payload := payload.1 }
      source := payload.2
      ncut := metas.ncut + payload.1.length }

/-- `CutRecord`, with `-recordio_max_record_size`. -/
def cutRecord (maxRecordSize : Nat) (source : σ) (ncut : Nat) : Cut σ :=
  let headbuf := copyTo source 9
  if headbuf.1.length ≠ 9 then { outcome := .notEnough, source := headbuf.2, ncut }
  else
    match readHead maxRecordSize headbuf.1 with
    | .invalid => { outcome := .invalid, source := headbuf.2, ncut }
    | .valid tmp =>
      if remainingBytes headbuf.2 < tmp % 2 ^ 31 + 9 then
        { outcome := .notEnough, source := headbuf.2, ncut }
      else cutBody tmp headbuf.2 ncut

def findMagic : List UInt8 → Option Nat
  | [] => none
  | byte :: rest =>
    if (byte :: rest).take 4 = recordMagic then some 0 else (findMagic rest).map (· + 1)

/-- A call of `CutUntilNextRecordCandidate`: whether it found a candidate, whether it came to the
search, and the source and `_ncut` behind it. -/
structure Seek (σ : Type) where
  found : Bool
  searched : Bool
  source : σ
  ncut : Nat

/-- The search in windows of 512 bytes that overlap in three.  Each round but the last removes
bytes, so that more rounds than bytes never happen. -/
def searchMagic : Nat → σ → Nat → Seek σ
  | 0, source, ncut => { found := false, searched := true, source, ncut }
  | fuel + 1, source, ncut =>
    let buf := copyTo source 512
    if buf.1.length < 4 then { found := false, searched := true, source := buf.2, ncut }
    else
      let m := buf.1.length + 1 - 4
      match findMagic buf.1 with
      | some i =>
        { found := true, searched := true, source := popFront buf.2 i, ncut := ncut + i }
      | none =>
        let source := popFront buf.2 m
        if buf.1.length < 512 then
          { found := false, searched := true, source, ncut := ncut + m }
        else searchMagic fuel source (ncut + m)

def cutUntilNextRecordCandidate (source : σ) (ncut : Nat) : Seek σ :=
  let magic := copyTo source 4
  if magic.1.length ≠ 4 then { found := false, searched := false, source := magic.2, ncut }
  else if magic.1 = recordMagic then
    let source := popFront magic.2 4
    searchMagic (remainingBytes source + 1) source (ncut + 4)
  else searchMagic (remainingBytes magic.2 + 1) magic.2 ncut

end Cutting

instance : ByteSource IOBufCutter where
  bytes := IOBufCutter.bytes
  remainingBytes := IOBufCutter.remainingBytes
  copyTo := IOBufCutter.copyTo
  popFront := IOBufCutter.popFront
  cut1 := IOBufCutter.cut1
  cutn := IOBufCutter.cutn
  remainingBytes_eq := IOBufCutter.remainingBytes_eq
  copyTo_fst cutter n := (cutter.copyTo_spec n).1
  bytes_copyTo cutter n := (cutter.copyTo_spec n).2
  bytes_popFront := IOBufCutter.bytes_popFront
  cut1_fst cutter := cutter.cut1_spec.1
  bytes_cut1 cutter := cutter.cut1_spec.2
  cutn_fst cutter n := (cutter.cutn_spec n).1
  bytes_cutn cutter n := (cutter.cutn_spec n).2

@[simp]
theorem bytes_cutter (cutter : IOBufCutter) : ByteSource.bytes cutter = cutter.bytes := rfl

/-- What the loop of `ReadNext` calls next.  `seek` tells whether an earlier call of its loop came
to the search already. -/
inductive Call where
  | cut
  | seek (searched : Bool)
deriving DecidableEq

/-- The place in the loop of `ReadNext`. -/
inductive Phase where
  | calling (next : Call)
  | reading (next : Call)
  | ended
deriving DecidableEq

/-- A reader whose caller calls `ReadNext` until it returns false: the results the underlying reader
will still return before one without bytes, which ends `ReadNext`, and the records returned so far.
-/
structure RecordReader where
  cutter : IOBufCutter
  ncut : Nat
  phase : Phase
  pending : List ReadResult
  records : List Record

namespace RecordReader

def start (pending : List ReadResult) : RecordReader where
  cutter := .empty
  ncut := 0
  phase := .calling .cut
  pending := pending
  records := []

/-- The loop of `ReadNext` behind a call of `CutRecord`.  A record is handed to the caller, who
calls `ReadNext` again. -/
def afterCut (reader : RecordReader) (cut : Cut IOBufCutter) : RecordReader :=
  match cut.outcome with
  | .record rec =>
    { reader with cutter := cut.source, ncut := cut.ncut, records := reader.records ++ [rec] }
  | .invalid =>
    { reader with cutter := cut.source, ncut := cut.ncut, phase := .calling (.seek false) }
  | .notEnough =>
    { reader with cutter := cut.source, ncut := cut.ncut, phase := .reading .cut }

/-- The loop of `ReadNext` behind a call of `CutUntilNextRecordCandidate`. -/
def afterSeek (reader : RecordReader) (searched : Bool) (seek : Seek IOBufCutter) : RecordReader :=
  { reader with
    cutter := seek.source
    ncut := seek.ncut
    phase := if seek.found then .calling .cut else .reading (.seek (searched || seek.searched)) }

/-- The loop of `ReadNext` behind a call of `append_from_reader`. -/
def afterRead (reader : RecordReader) (next : Call) : RecordReader :=
  match reader.pending with
  | [] => { reader with phase := .ended }
  | read :: pending =>
    { reader with cutter := reader.cutter.append read, phase := .calling next, pending }

/-- One call in the loop of `ReadNext`. -/
def step (maxRecordSize : Nat) (reader : RecordReader) : RecordReader :=
  match reader.phase with
  | .calling .cut => reader.afterCut (cutRecord maxRecordSize reader.cutter reader.ncut)
  | .calling (.seek searched) =>
    reader.afterSeek searched (cutUntilNextRecordCandidate reader.cutter reader.ncut)
  | .reading next => reader.afterRead next
  | .ended => reader

/-- The records returned by the calls of `ReadNext` until it returns false, and `offset()` then. -/
def Returns (maxRecordSize : Nat) (reads : List ReadResult) (records : List Record)
    (offset : Nat) : Prop :=
  ∃ n, ((step maxRecordSize)^[n] (start reads)).phase = .ended ∧
    ((step maxRecordSize)^[n] (start reads)).records = records ∧
    ((step maxRecordSize)^[n] (start reads)).ncut = offset

end RecordReader
end RecordIO
end McBrpc
