import McBrpc.Butil.RecordCutting
import McBrpc.Library.Machine

/-!
# Reading records from any split of a stream

`PlainReader` works on all bytes that are left.  A `RecordReader` does its steps as long as no read
continues the block the cutter is in the middle of, a search that was interrupted does not start
with a magic when it is resumed, and the heads of the metas are in the buffer when a record is cut.
-/

namespace McBrpc

open List ReadResult Nat
namespace RecordIO

inductive PlainPhase where
  | cut
  | skip
  | scan
  | ended
deriving DecidableEq

/-- A reader that has all bytes of its input. -/
structure PlainReader where
  rest : List UInt8
  ncut : Nat
  phase : PlainPhase
  records : List Record
deriving DecidableEq

namespace PlainReader

/-- One step: cut a record, skip the magic of an invalid one, or pass a byte in search of the next
magic. -/
def step (maxRecordSize : Nat) (reader : PlainReader) : PlainReader :=
  match reader.phase with
  | .cut =>
    let cut := cutRecord maxRecordSize reader.rest reader.ncut
    match cut.outcome with
    | .record rec =>
      { reader with rest := cut.source, ncut := cut.ncut, records := reader.records ++ [rec] }
    | .invalid => { reader with rest := cut.source, ncut := cut.ncut, phase := .skip }
    | .notEnough => { reader with phase := .ended }
  | .skip =>
    if reader.rest.length < 4 then { reader with phase := .ended }
    else if StartsWithMagic reader.rest then
      { reader with rest := reader.rest.drop 4, ncut := reader.ncut + 4, phase := .scan }
    else { reader with phase := .scan }
  | .scan =>
    if reader.rest.length < 4 then { reader with phase := .ended }
    else if StartsWithMagic reader.rest then { reader with phase := .cut }
    else { reader with rest := reader.rest.drop 1, ncut := reader.ncut + 1 }
  | .ended => reader

variable {limit : Nat} {rest : List UInt8}

theorem step_ended {reader : PlainReader} (ended : reader.phase = .ended) :
    step limit reader = reader := by
  simp [step, ended]

theorem step_skip_magic (ncut : Nat) (records : List Record) (long : 4 ≤ rest.length)
    (magic : StartsWithMagic rest) :
    step limit { rest, ncut, phase := .skip, records } =
      { rest := rest.drop 4, ncut := ncut + 4, phase := .scan, records } := by
  simp [step, magic, long]

theorem step_skip_other (ncut : Nat) (records : List Record) (long : 4 ≤ rest.length)
    (other : ¬StartsWithMagic rest) :
    step limit { rest, ncut, phase := .skip, records } =
      { rest, ncut, phase := .scan, records } := by
  simp [step, other, long]

theorem scan_reaches (limit : Nat) (records : List Record) (ncut i : Nat)
    (enough : i + 3 ≤ rest.length) (none : ∀ j < i, ¬StartsWithMagic (rest.drop j)) :
    Machine.Reaches (step limit) { rest, ncut, phase := .scan, records }
      { rest := rest.drop i, ncut := ncut + i, phase := .scan, records } := by
  induction i with
  | zero => exact .refl _ _
  | succ i ih =>
    refine (ih (by omega) fun j before => none j (by omega)).trans (.single ?_)
    have long : 4 ≤ rest.length - i := by omega
    simp [step, long, none i (by omega), add_assoc]

end PlainReader

/-- The plain reader passes the same bytes, whatever comes behind the text. -/
theorem Searched.reaches {text : List UInt8} {ncut : Nat} {seek : Seek (List UInt8)}
    (result : Searched text ncut seek) (limit : Nat) (more : List UInt8)
    (records : List Record) :
    Machine.Reaches (PlainReader.step limit)
      { rest := text ++ more, ncut, phase := .scan, records }
      { rest := seek.source ++ more, ncut := seek.ncut
        phase := if seek.found then .cut else .scan, records } := by
  obtain ⟨i, before, source, count, out⟩ := result
  have inside : 0 < i → i + 3 ≤ text.length := by
    rcases out with ⟨-, magic⟩ | ⟨-, -, popped⟩
    · have long := magic.length
      rw [length_drop] at long
      omega
    · exact popped
  have scanned : Machine.Reaches (PlainReader.step limit)
      { rest := text ++ more, ncut, phase := .scan, records }
      { rest := text.drop i ++ more, ncut := ncut + i, phase := .scan, records } := by
    cases i with
    | zero => exact .refl _ _
    | succ i =>
      have dropped : (text ++ more).drop (i + 1) = text.drop (i + 1) ++ more :=
        drop_append_of_le_length (by omega)
      rw [← dropped]
      refine PlainReader.scan_reaches _ _ _ _ (by rw [length_append]; omega) ?_
      intro j less
      rw [drop_append_of_le_length (by omega), startsWithMagic_append (by rw [length_drop]; omega)]
      exact before j less
  rw [source, count]
  rcases out with ⟨found, magic⟩ | ⟨absent, -⟩
  · refine scanned.trans (.single ?_)
    have long := magic.length
    have there : ¬(text.drop i ++ more).length < 4 := by
      rw [length_append]
      omega
    simp only [PlainReader.step]
    rw [if_neg there, if_pos ((startsWithMagic_append long).mpr magic), if_pos found]
  · rwa [if_neg (by simp [absent])]

def Call.plain : Call → PlainPhase
  | .cut => .cut
  | .seek false => .skip
  | .seek true => .scan

def Phase.plain : Phase → PlainPhase
  | .calling next | .reading next => next.plain
  | .ended => .ended

namespace RecordReader

def toCome (reader : RecordReader) : List UInt8 := (reader.pending.map bytes).flatten

/-- The plain reader that has all bytes which are left. -/
def plain (reader : RecordReader) : PlainReader where
  rest := reader.cutter.bytes ++ reader.toCome
  ncut := reader.ncut
  phase := reader.phase.plain
  records := reader.records

/-- The reader may take its next step: the heads of the metas are there when a record is cut, a
resumed search does not start with a magic, and a read does not continue the block the cutter is
in. -/
def admissible (maxRecordSize : Nat) (reader : RecordReader) : Bool :=
  match reader.phase with
  | .calling .cut => headsThere maxRecordSize reader.cutter.bytes
  | .calling (.seek searched) => !(searched && StartsWithMagic reader.cutter.bytes)
  | .reading _ => reader.pending.head?.all fun read => !reader.cutter.hides read
  | .ended => true

/-- The reader reads only when there is too little for its next call. -/
def Waiting (maxRecordSize : Nat) (reader : RecordReader) : Prop :=
  match reader.phase with
  | .reading .cut =>
    (cutRecord maxRecordSize reader.cutter.bytes reader.ncut).outcome = .notEnough
  | .reading (.seek _) => reader.cutter.bytes.length < 4
  | _ => True

/-- The plain reader gets as far, and what waits has to. -/
def Follows (maxRecordSize : Nat) (reader after : RecordReader) : Prop :=
  Machine.Reaches (PlainReader.step maxRecordSize) reader.plain after.plain ∧
    Waiting maxRecordSize after

variable {limit : Nat} {reader : RecordReader}

/-- A call of `CutRecord` is a step of the plain reader, or none when it needs more bytes. -/
theorem step_cut (phase : reader.phase = .calling .cut)
    (heads : headsThere limit reader.cutter.bytes = true) :
    Follows limit reader (step limit reader) := by
  have seen : cutRecord limit reader.cutter.bytes reader.ncut = _ :=
    cutRecord_bytes limit reader.cutter reader.ncut
  have more := cutRecord_append reader.ncut reader.toCome heads
  have started : reader.plain = { reader.plain with phase := .cut } := by
    simp [plain, phase, Phase.plain, Call.plain]
  rw [seen] at more
  rw [Follows, step, phase, started]
  generalize cutRecord limit reader.cutter reader.ncut = cut at seen more ⊢
  obtain ⟨out, source, ncut⟩ := cut
  cases out with
  | record rec =>
    refine ⟨.single ?_, by simp [afterCut, Waiting, phase]⟩
    simp only [PlainReader.step, plain, more (by simp), afterCut, phase]
    rfl
  | invalid =>
    refine ⟨.single ?_, trivial⟩
    simp only [PlainReader.step, plain, more (by simp)]
    rfl
  | notEnough =>
    have same := cutRecord_notEnough (congrArg Cut.outcome seen)
    rw [seen] at same
    obtain ⟨sameBytes, rfl⟩ : source.bytes = reader.cutter.bytes ∧ ncut = reader.ncut := by
      simpa using same
    refine ⟨?_, ?_⟩
    · simp only [plain, afterCut, sameBytes]
      exact .refl _ _
    · simp [Waiting, afterCut, sameBytes, seen]

theorem afterSeek_search {searched : Bool} {seek : Seek IOBufCutter} {text : List UInt8}
    {ncut : Nat} (result : Searched text ncut
      { found := seek.found, searched := seek.searched, source := seek.source.bytes
        ncut := seek.ncut }) (came : seek.searched = true)
    (entered : Machine.Reaches (PlainReader.step limit) reader.plain
      { rest := text ++ reader.toCome, ncut, phase := .scan, records := reader.records }) :
    Follows limit reader (reader.afterSeek searched seek) := by
  have passed := entered.trans (result.reaches limit reader.toCome reader.records)
  cases found : seek.found with
  | true =>
    refine ⟨?_, by simp [Waiting, afterSeek, found]⟩
    simpa [found, afterSeek, plain, Phase.plain, Call.plain, toCome] using passed
  | false =>
    refine ⟨?_, by simpa [Waiting, afterSeek, found] using result.short found⟩
    simpa [found, came, afterSeek, plain, Phase.plain, Call.plain, toCome] using passed

/-- A call of `CutUntilNextRecordCandidate` passes the bytes the plain reader skips and scans. -/
theorem step_seek {searched : Bool} (phase : reader.phase = .calling (.seek searched))
    (resumed : searched = true → ¬StartsWithMagic reader.cutter.bytes) :
    Follows limit reader (step limit reader) := by
  have seen : cutUntilNextRecordCandidate reader.cutter.bytes reader.ncut = _ :=
    seek_bytes reader.cutter reader.ncut
  have started : reader.plain =
      { rest := reader.cutter.bytes ++ reader.toCome, ncut := reader.ncut
        phase := (Call.seek searched).plain, records := reader.records } := by
    simp [plain, phase, Phase.plain]
  rw [step, phase]
  obtain short | long := lt_or_ge reader.cutter.bytes.length 4
  · rw [seek_short reader.ncut short] at seen
    generalize cutUntilNextRecordCandidate reader.cutter reader.ncut = seek at seen ⊢
    obtain ⟨found, came, source, ncut⟩ := seek
    obtain ⟨rfl, rfl, same, rfl⟩ : false = found ∧ false = came ∧
        reader.cutter.bytes = source.bytes ∧ reader.ncut = ncut := by
      simpa using seen
    refine ⟨?_, by simpa [Waiting, afterSeek, ← same] using short⟩
    have same : (reader.afterSeek searched ⟨false, false, source, reader.ncut⟩).plain =
        reader.plain := by
      simp [afterSeek, plain, ← same, phase, Phase.plain, toCome]
    rw [same]
    exact .refl _ _
  · have there : 4 ≤ (reader.cutter.bytes ++ reader.toCome).length := by
      rw [length_append]
      omega
    by_cases magic : StartsWithMagic reader.cutter.bytes
    · obtain ⟨result, came⟩ := seek_magic reader.ncut magic
      rw [seen] at result came
      refine afterSeek_search result came (.single ?_)
      obtain rfl : searched = false := by
        cases searched with
        | false => rfl
        | true => exact absurd magic (resumed rfl)
      rw [started, Call.plain, PlainReader.step_skip_magic _ _ there
        ((startsWithMagic_append long).mpr magic), drop_append_of_le_length long]
    · obtain ⟨result, came⟩ := seek_other reader.ncut long magic
      rw [seen] at result came
      refine afterSeek_search result came ?_
      rw [started]
      cases searched with
      | true => exact .refl _ _
      | false =>
        exact .single (PlainReader.step_skip_other _ _ there
          (mt (startsWithMagic_append long).mp magic))

theorem step_read {next : Call} (phase : reader.phase = .reading next)
    (visible : ∀ read ∈ reader.pending.head?, reader.cutter.hides read = false)
    (waiting : Waiting limit reader) :
    Follows limit reader (step limit reader) := by
  obtain ⟨cutter, ncut, _, pending, records⟩ := reader
  cases phase
  cases pending with
  | cons read pending =>
    refine ⟨?_, trivial⟩
    have appended := IOBufCutter.bytes_append (visible read rfl)
    simp only [step, afterRead, plain, appended, toCome, map_cons, flatten_cons, append_assoc]
    exact .refl _ _
  | nil =>
    refine ⟨.single ?_, trivial⟩
    simp only [step, afterRead, plain, toCome, map_nil, flatten_nil, append_nil]
    cases next with
    | cut =>
      simp only [Waiting] at waiting
      simp [PlainReader.step, Phase.plain, Call.plain, waiting]
    | seek searched =>
      have short : cutter.bytes.length < 4 := waiting
      cases searched <;> simp [PlainReader.step, Phase.plain, Call.plain, short]

theorem step_follows (admitted : reader.admissible limit = true)
    (waiting : Waiting limit reader) :
    Follows limit reader (step limit reader) := by
  rw [admissible] at admitted
  split at admitted
  · rename_i phase
    exact step_cut phase admitted
  · rename_i searched phase
    refine step_seek phase ?_
    rintro rfl
    simpa using admitted
  · rename_i next phase
    refine step_read phase (fun read first => ?_) waiting
    simpa [Option.mem_def.mp first] using admitted
  · rename_i phase
    rw [step, phase]
    exact ⟨.refl _ _, waiting⟩

def rank (reader : RecordReader) : Nat :=
  4 * (reader.cutter.bytes.length + reader.toCome.length) + 3 * reader.pending.length +
    match reader.phase with
    | .calling .cut => 3
    | .calling (.seek _) => 2
    | .reading _ => 1
    | .ended => 0

theorem length_toCome_cons (read : ReadResult) (pending : List ReadResult) :
    ((read :: pending).map bytes).flatten.length =
      read.bytes.length + (pending.map bytes).flatten.length := by
  simp

theorem rank_step_lt (going : reader.phase ≠ .ended) :
    (step limit reader).rank < reader.rank := by
  rw [step]
  split
  · rename_i phase
    have seen : cutRecord limit reader.cutter.bytes reader.ncut = _ :=
      cutRecord_bytes limit reader.cutter reader.ncut
    obtain ⟨shorter, shortest⟩ := length_cutRecord limit reader.cutter.bytes reader.ncut
    rw [seen] at shorter shortest
    simp only [bytes_cutter] at shorter shortest
    rw [afterCut]
    split
    · rename_i rec out
      have less := shortest rec out
      simp only [rank, phase, toCome]
      omega
    · simp only [rank, phase, toCome]
      omega
    · simp only [rank, phase, toCome]
      omega
  · rename_i searched phase
    have seen : cutUntilNextRecordCandidate reader.cutter.bytes reader.ncut = _ :=
      seek_bytes reader.cutter reader.ncut
    obtain ⟨shorter, shortest⟩ := length_seek reader.cutter.bytes reader.ncut
    rw [seen] at shorter shortest
    simp only [bytes_cutter] at shorter shortest
    cases found : (cutUntilNextRecordCandidate reader.cutter reader.ncut).found with
    | true =>
      have less := shortest found
      simp only [rank, afterSeek, found, phase, toCome, if_true]
      omega
    | false =>
      simp only [rank, afterSeek, found, phase, toCome, Bool.false_eq_true, if_false]
      omega
  · rename_i next phase
    rw [afterRead]
    split
    · simp only [rank, phase, toCome]
      omega
    · rename_i read pending shape
      have appended := reader.cutter.length_bytes_append_le read
      have target : (match Phase.calling next with
          | .calling .cut => 3
          | .calling (.seek _) => 2
          | .reading _ => 1
          | .ended => 0) ≤ 3 := by
        cases next <;> simp
      simp only [rank, phase, toCome, shape, length_toCome_cons, length_cons] at target ⊢
      omega
  · rename_i phase
    exact absurd phase going

theorem exists_ended (limit : Nat) (reader : RecordReader) :
    ∃ n, ((step limit)^[n] reader).phase = .ended :=
  Machine.exists_final (fun reader => reader.phase = .ended) rank
    (fun _ going => rank_step_lt going) reader

/-- Reading from admissible splits of the same bytes returns the same records and passes the same
number of bytes. -/
theorem returns_of_same_bytes (maxRecordSize : Nat) (first second : List ReadResult)
    (same : (first.map bytes).flatten = (second.map bytes).flatten)
    (firstAdmissible : ∀ i,
      ((step maxRecordSize)^[i] (start first)).admissible maxRecordSize = true)
    (secondAdmissible : ∀ i,
      ((step maxRecordSize)^[i] (start second)).admissible maxRecordSize = true) :
    ∃ records offset, Returns maxRecordSize first records offset ∧
      Returns maxRecordSize second records offset := by
  obtain ⟨n, firstEnded⟩ := exists_ended maxRecordSize (start first)
  obtain ⟨m, secondEnded⟩ := exists_ended maxRecordSize (start second)
  have follows : ∀ reads,
      (∀ i, ((step maxRecordSize)^[i] (start reads)).admissible maxRecordSize = true) → ∀ k,
      Machine.Reaches (PlainReader.step maxRecordSize) (start reads).plain
        ((step maxRecordSize)^[k] (start reads)).plain := fun reads admitted =>
    Machine.follows plain (Waiting maxRecordSize) trivial
      (fun _ admitted waiting => step_follows admitted waiting) admitted
  have sameStart : (start first).plain = (start second).plain := by
    simp [plain, start, toCome, same]
  have firstReached := follows first firstAdmissible n
  have secondReached := follows second secondAdmissible m
  rw [sameStart] at firstReached
  have sameEnd := firstReached.stop_unique secondReached
    (PlainReader.step_ended (by simp [plain, Phase.plain, firstEnded]))
    (PlainReader.step_ended (by simp [plain, Phase.plain, secondEnded]))
  refine ⟨_, _, ⟨n, firstEnded, rfl, rfl⟩, ⟨m, secondEnded, ?_, ?_⟩⟩
  · exact (congrArg PlainReader.records sameEnd).symm
  · exact (congrArg PlainReader.ncut sameEnd).symm

theorem forall_of_ended (property : RecordReader → Prop) (n : Nat)
    (ended : ((step limit)^[n] reader).phase = .ended)
    (until_ended : ∀ i < n + 1, property ((step limit)^[i] reader)) (i : Nat) :
    property ((step limit)^[i] reader) := by
  obtain before | behind := lt_or_ge i (n + 1)
  · exact until_ended i before
  · obtain ⟨k, rfl⟩ := Nat.exists_eq_add_of_le' (Nat.le_of_succ_le behind)
    have fixed : step limit ((step limit)^[n] reader) =
        (step limit)^[n] reader := by
      rw [step, ended]
    rw [Function.iterate_add_apply, Function.iterate_fixed fixed]
    exact until_ended n (Nat.lt_succ_self n)

/-- Nine bytes that are no record, then a record with the payload 7: in one read, and in two that
are cut inside the record and lie in different blocks. -/
theorem returns_of_same_bytes_garbage : ∃ records offset,
      Returns 100 [.inBlock false [0, 0, 0, 0, 0, 0, 0, 0, 0, 82, 68, 73, 79, 0, 0, 0, 1, 185, 7]]
        records offset ∧
      Returns 100 [.inBlock false [0, 0, 0, 0, 0, 0, 0, 0, 0, 82, 68, 73, 79, 0, 0],
        .inBlock false [0, 1, 185, 7]] records offset :=
  returns_of_same_bytes 100 _ _ (by decide)
    (forall_of_ended (fun reader => reader.admissible 100 = true) 10 (by decide +kernel)
      (by decide +kernel))
    (forall_of_ended (fun reader => reader.admissible 100 = true) 10 (by decide +kernel)
      (by decide +kernel))

/-- The stream of one record is read in one piece, but not when its second half continues the
block of the first: the cutter never sees it.  Behind bytes that are no record, the record is lost
when a read ends inside its magic, also if the next read fills another block (the first one of 8 KB
is full then, with more bytes in front). -/
theorem returns_depends_on_split :
    (∃ rec, Returns 100 [.inBlock false [82, 68, 73, 79, 0, 0, 0, 1, 185, 7]] [rec] 10) ∧
      Returns 100 [.inBlock false [82, 68, 73, 79, 0], .inBlock true [0, 0, 1, 185, 7]] [] 0 ∧
      (∃ rec, Returns 100
        [.inBlock false [0, 0, 0, 0, 0, 0, 0, 0, 0, 82, 68, 73, 79, 0, 0, 0, 1, 185, 7]]
        [rec] 19) ∧
      Returns 100 [.inBlock false [0, 0, 0, 0, 0, 0, 0, 0, 0, 82, 68, 73],
        .inBlock false [79, 0, 0, 0, 1, 185, 7]] [] 16 := by
  refine ⟨⟨{ Record.empty with payload := [7] }, 6, ?_⟩, ⟨6, ?_⟩,
    ⟨{ Record.empty with payload := [7] }, 8, ?_⟩, ⟨9, ?_⟩⟩ <;> decide +kernel

end RecordReader

end RecordIO
end McBrpc
