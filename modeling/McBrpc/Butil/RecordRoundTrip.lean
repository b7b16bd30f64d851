import McBrpc.Butil.RecordReading

/-!
# Records are read back as they were written

The size of a meta's name is written in one byte, so a name of `MAX_NAME_SIZE` = 256 bytes comes
out as an empty one.  Every other record that the writer accepts is cut from the stream as it was
written, in exactly its `ByteSize`.
-/

namespace McBrpc

open List ByteSource BigEndian Nat Machine
namespace RecordIO

def metasBytes : List (List UInt8 × List UInt8) → List UInt8
  | [] => []
  | entry :: rest => writeMeta (!rest.isEmpty) entry ++ metasBytes rest

def Record.sizeWord (rec : Record) : Nat :=
  flaggedSize (!rec.metas.isEmpty) (metasBytes rec.metas ++ rec.payload).length

def Record.wire (rec : Record) : List UInt8 :=
  recordMagic ++ encode 4 rec.sizeWord ++ [sizeChecksum rec.sizeWord] ++
    (metasBytes rec.metas ++ rec.payload)

structure Record.Writable (rec : Record) : Prop where
  meta_lt : ∀ entry ∈ rec.metas, entry.2.length < 2 ^ 31
  data_lt : (metasBytes rec.metas ++ rec.payload).length < 2 ^ 31

theorem writeMetas_eq_some {entries : List (List UInt8 × List UInt8)} {body : List UInt8}
    (wrote : writeMetas entries = some body) :
    body = metasBytes entries ∧ ∀ entry ∈ entries, entry.2.length < 2 ^ 31 := by
  induction entries generalizing body with
  | nil => simpa [writeMetas, metasBytes, eq_comm] using wrote
  | cons entry rest ih =>
    rw [writeMetas] at wrote
    split at wrote
    · cases wrote
    · split at wrote
      · cases wrote
      · rename_i small
        obtain ⟨others, writtenRest, rfl⟩ := Option.map_eq_some_iff.mp wrote
        obtain ⟨rfl, smaller⟩ := ih writtenRest
        refine ⟨rfl, fun other member => ?_⟩
        rcases mem_cons.mp member with rfl | member
        · exact Nat.lt_of_not_le small
        · exact smaller other member

theorem writeWithoutFlush_eq_some {buf after : List UInt8} {rec : Record}
    (wrote : writeWithoutFlush buf rec = some after) :
    after = buf ++ rec.wire ∧ rec.Writable := by
  rw [writeWithoutFlush] at wrote
  split at wrote
  · cases wrote
  · rename_i body metas
    obtain ⟨rfl, smaller⟩ := writeMetas_eq_some metas
    simp only at wrote
    split at wrote
    · cases wrote
    · rename_i small
      exact ⟨(Option.some.inj wrote).symm, smaller, Nat.lt_of_not_le small⟩

theorem length_writeMeta (more : Bool) (entry : List UInt8 × List UInt8) :
    (writeMeta more entry).length = Record.metaSize entry := by
  simp only [writeMeta, Record.metaSize, length_append, length_cons, length_encode]
  omega

theorem length_metasBytes (entries : List (List UInt8 × List UInt8)) :
    (metasBytes entries).length = (entries.map Record.metaSize).sum := by
  induction entries with
  | nil => rfl
  | cons entry rest ih => simp [metasBytes, length_writeMeta, ih]

theorem length_le_length_metasBytes (entries : List (List UInt8 × List UInt8)) :
    entries.length ≤ (metasBytes entries).length := by
  induction entries with
  | nil => simp
  | cons entry rest ih =>
    rw [metasBytes, length_append, length_writeMeta, Record.metaSize, length_cons]
    omega

theorem byteSize_eq (rec : Record) :
    rec.byteSize = 9 + (metasBytes rec.metas ++ rec.payload).length := by
  rw [Record.byteSize, length_append, length_metasBytes]
  omega

theorem flaggedSize_false (size : Nat) : flaggedSize false size = size % 2 ^ 31 := rfl

theorem flaggedSize_true (size : Nat) : flaggedSize true size = size % 2 ^ 31 + 2 ^ 31 := rfl

theorem flaggedSize_lt (flag : Bool) (size : Nat) : flaggedSize flag size < 256 ^ 4 := by
  cases flag with
  | false => rw [flaggedSize_false]; omega
  | true => rw [flaggedSize_true]; omega

theorem flaggedSize_mod {size : Nat} (flag : Bool) (small : size < 2 ^ 31) :
    flaggedSize flag size % 2 ^ 31 = size := by
  cases flag with
  | false => rw [flaggedSize_false]; omega
  | true => rw [flaggedSize_true]; omega

theorem le_flaggedSize_iff (flag : Bool) (size : Nat) :
    2 ^ 31 ≤ flaggedSize flag size ↔ flag = true := by
  cases flag with
  | false => rw [flaggedSize_false]; simp; omega
  | true => rw [flaggedSize_true]; simp

variable {entry : List UInt8 × List UInt8} {dataSize used : Nat} {text : List UInt8}

theorem cutMetaHead_writeMeta (tmp : Nat) (more : Bool) (tail : List UInt8)
    (short : entry.1.length ≤ 255) :
    cutMetaHead tmp (writeMeta more entry ++ tail) =
      { nameSize := entry.1.length, name := entry.1, tmp := flaggedSize more entry.2.length
        source := entry.2 ++ tail } := by
  have size : (UInt8.ofNat entry.1.length).toNat = entry.1.length := by
    rw [UInt8.toNat_ofNat', mod_eq_of_lt (by omega)]
  have word : (encode 4 (flaggedSize more entry.2.length)).length = 4 :=
    length_encode ..
  simp only [cutMetaHead, writeMeta, cut1_list, cutn_list, cons_append,
    head?_cons, tail_cons, Option.getD_some, size, append_assoc]
  rw [take_left, drop_left, take_left' word, drop_left' word, word,
    drop_of_length_le (by simp), append_nil,
    decode_encode_of_lt (flaggedSize_lt more _)]

theorem Record.eq_of_fields {first second : Record} (payload : first.payload = second.payload)
    (metas : first.metas = second.metas) : first = second := by
  cases first
  cases second
  cases payload
  cases metas
  rfl

theorem mutableMeta_of_target {rec target : Record} {rest : List (List UInt8 × List UInt8)}
    (metas : target.metas = rec.metas ++ entry :: rest) :
    ∃ withMeta, rec.mutableMeta entry.1 = some withMeta ∧
      (withMeta entry.2).metas = rec.metas ++ [entry] ∧
      (withMeta entry.2).payload = rec.payload := by
  have distinct := target.distinct
  have named := target.named entry.1 (by simp [metas])
  rw [metas, map_append, map_cons, nodup_append] at distinct
  have fresh : entry.1 ∉ rec.metas.map Prod.fst ∧ entry.1.length ≤ 256 ∧ entry.1 ≠ [] :=
    ⟨fun member => distinct.2.2 entry.1 member entry.1 (by simp) rfl, named.2, named.1⟩
  refine ⟨_, dif_pos fresh, rfl, rfl⟩

theorem cutMetas_writeMeta {rec : Record} {withMeta : List UInt8 → Record} (fuel tmp ncut : Nat)
    (more : Bool) (tail : List UInt8) (short : entry.1.length ≤ 255)
    (small : entry.2.length < 2 ^ 31) (added : rec.mutableMeta entry.1 = some withMeta)
    (fits : used + Record.metaSize entry ≤ dataSize) :
    cutMetas dataSize (fuel + 1) tmp used rec (writeMeta more entry ++ tail) ncut =
        (if more then
          cutMetas dataSize fuel (flaggedSize more entry.2.length)
            (used + Record.metaSize entry) (withMeta entry.2) tail
            (ncut + Record.metaSize entry)
        else
          { result := some (withMeta entry.2, used + Record.metaSize entry)
            source := tail
            ncut := ncut + Record.metaSize entry }) ∧
      headsComplete dataSize (fuel + 1) tmp used rec (writeMeta more entry ++ tail) =
        (!more || headsComplete dataSize fuel (flaggedSize more entry.2.length)
          (used + Record.metaSize entry) (withMeta entry.2) tail) := by
  have inside : ¬dataSize < used + 5 + entry.1.length + entry.2.length := by
    rw [Record.metaSize] at fits
    omega
  have count : ncut + (5 + entry.1.length) + entry.2.length = ncut + Record.metaSize entry := by
    rw [Record.metaSize]
    omega
  have total : 5 + entry.1.length + entry.2.length = Record.metaSize entry := rfl
  have flag := le_flaggedSize_iff more entry.2.length
  constructor
  · simp only [cutMetas, cutMetaHead_writeMeta tmp more tail short, flaggedSize_mod more small,
      cutn_list, take_left, drop_left, inside, if_false, added, flag, count,
      total]
  · have full : 5 + entry.1.length ≤ (writeMeta more entry ++ tail).length := by
      rw [length_append, length_writeMeta, Record.metaSize]
      omega
    have last : decide (flaggedSize more entry.2.length < 2 ^ 31) = !more := by
      cases more with
      | true => simpa using not_lt.mpr (flag.mpr rfl)
      | false => simpa using Nat.lt_of_not_le (mt flag.mp (by simp))
    simp only [headsComplete, cutMetaHead_writeMeta tmp more tail short,
      flaggedSize_mod more small, take_left, drop_left, inside, added, last, total,
      full, decide_true, decide_false, Bool.true_and, Bool.false_or]

/-- The loop over the metas cuts the written ones and stops behind them; their heads are there. -/
theorem cutMetas_metasBytes {rest : List (List UInt8 × List UInt8)} {rec target : Record}
    {fuel : Nat} (tmp ncut : Nat) (tail : List UInt8)
    (short : ∀ other ∈ entry :: rest, other.1.length ≤ 255 ∧ other.2.length < 2 ^ 31)
    (metas : target.metas = rec.metas ++ entry :: rest) (payload : target.payload = rec.payload)
    (fits : used + (metasBytes (entry :: rest)).length ≤ dataSize)
    (rounds : rest.length < fuel) :
    cutMetas dataSize fuel tmp used rec (metasBytes (entry :: rest) ++ tail) ncut =
        { result := some (target, used + (metasBytes (entry :: rest)).length)
          source := tail
          ncut := ncut + (metasBytes (entry :: rest)).length } ∧
      headsComplete dataSize fuel tmp used rec (metasBytes (entry :: rest) ++ tail) = true := by
  induction rest generalizing entry rec fuel used tmp ncut with
  | nil =>
    obtain ⟨withMeta, added, withMetas, withPayload⟩ := mutableMeta_of_target metas
    obtain ⟨fuel, rfl⟩ := exists_eq_succ_of_ne_zero (ne_of_gt rounds)
    have last : withMeta entry.2 = target :=
      Record.eq_of_fields (withPayload.trans payload.symm) (withMetas.trans metas.symm)
    have size : (metasBytes [entry]).length = Record.metaSize entry := by
      simp [metasBytes, length_writeMeta]
    rw [size] at fits ⊢
    obtain ⟨cut, heads⟩ := cutMetas_writeMeta fuel tmp ncut false tail (short entry (by simp)).1
      (short entry (by simp)).2 added fits
    simp only [metasBytes, append_nil, isEmpty_nil, Bool.not_true]
    rw [cut, heads, last]
    simp
  | cons next rest ih =>
    obtain ⟨withMeta, added, withMetas, withPayload⟩ := mutableMeta_of_target metas
    obtain ⟨fuel, rfl⟩ := exists_eq_succ_of_ne_zero (ne_of_gt (zero_lt_of_lt rounds))
    have size : (metasBytes (entry :: next :: rest)).length =
        Record.metaSize entry + (metasBytes (next :: rest)).length := by
      rw [metasBytes, length_append, length_writeMeta]
    rw [size] at fits ⊢
    have here : used + Record.metaSize entry ≤ dataSize := by omega
    have behind : used + Record.metaSize entry + (metasBytes (next :: rest)).length ≤
        dataSize := by omega
    have shortRest : ∀ other ∈ next :: rest,
        other.1.length ≤ 255 ∧ other.2.length < 2 ^ 31 := fun other member =>
      short other (mem_cons_of_mem entry member)
    have metasRest : target.metas = (withMeta entry.2).metas ++ next :: rest := by
      rw [withMetas, metas, append_assoc]
      rfl
    obtain ⟨cut, heads⟩ := cutMetas_writeMeta fuel tmp ncut true
      (metasBytes (next :: rest) ++ tail) (short entry (by simp)).1
      (short entry (by simp)).2 added here
    obtain ⟨cutRest, headsRest⟩ := ih (flaggedSize true entry.2.length)
      (ncut + Record.metaSize entry) shortRest metasRest (payload.trans withPayload.symm)
      behind (lt_of_succ_lt_succ rounds)
    have first : metasBytes (entry :: next :: rest) ++ tail =
        writeMeta true entry ++ (metasBytes (next :: rest) ++ tail) := by
      rw [metasBytes, append_assoc]
      rfl
    rw [first, cut, heads, if_pos rfl, cutRest, headsRest]
    simp [add_assoc]

/-- A record that the writer accepts, whose data does not exceed `-recordio_max_record_size` and
whose names fit the byte in front of them. -/
structure Record.Readable (maxRecordSize : Nat) (rec : Record) : Prop where
  writable : rec.Writable
  fits : (metasBytes rec.metas ++ rec.payload).length ≤ maxRecordSize
  short : ∀ entry ∈ rec.metas, entry.1.length ≤ 255

variable {maxRecordSize : Nat} {rec : Record}

theorem take_wire (rec : Record) (more : List UInt8) : (rec.wire ++ more).take 9 =
      recordMagic ++ encode 4 rec.sizeWord ++ [sizeChecksum rec.sizeWord] := by
  rw [Record.wire, append_assoc]
  exact take_left' (by simp [recordMagic])

theorem drop_wire (rec : Record) (more : List UInt8) :
    (rec.wire ++ more).drop 9 = metasBytes rec.metas ++ (rec.payload ++ more) := by
  rw [Record.wire, append_assoc, drop_left' (by simp [recordMagic]), append_assoc]

theorem length_wire (rec : Record) : rec.wire.length = rec.byteSize := by
  rw [byteSize_eq, Record.wire, length_append]
  simp [recordMagic]

theorem sizeWord_mod (writable : rec.Writable) :
    rec.sizeWord % 2 ^ 31 = (metasBytes rec.metas ++ rec.payload).length :=
  flaggedSize_mod _ writable.data_lt

theorem le_sizeWord_iff (rec : Record) : 2 ^ 31 ≤ rec.sizeWord ↔ rec.metas ≠ [] := by
  rw [Record.sizeWord, le_flaggedSize_iff]
  simp

section Wire

variable (readable : rec.Readable maxRecordSize)
include readable

theorem readHead_wire (more : List UInt8) :
    readHead maxRecordSize ((rec.wire ++ more).take 9) = .valid rec.sizeWord := by
  have word : (encode 4 rec.sizeWord).length = 4 := length_encode ..
  have decoded : decode (encode 4 rec.sizeWord) = rec.sizeWord :=
    decode_encode_of_lt (flaggedSize_lt ..)
  have fits : ¬maxRecordSize < rec.sizeWord % 2 ^ 31 := by
    rw [sizeWord_mod readable.writable]
    exact not_lt.mpr readable.fits
  have magic : recordMagic.length = 4 := rfl
  simp only [take_wire, readHead, append_assoc, take_left' magic, drop_left' magic,
    take_left' word, decoded, ne_eq, not_true, if_false, fits]
  rw [show 8 = 4 + 4 from rfl, ← drop_drop, drop_left' magic, drop_left' word]
  simp

theorem cutAnnouncedMetas_wire (bare : Record) (bareMetas : bare.metas = rec.metas)
    (barePayload : bare.payload = []) (more : List UInt8) (ncut : Nat) :
    cutAnnouncedMetas rec.sizeWord ((rec.wire ++ more).drop 9) ncut =
        { result := some (bare, (metasBytes rec.metas).length)
          source := rec.payload ++ more
          ncut := ncut + (metasBytes rec.metas).length } ∧
      (2 ^ 31 ≤ rec.sizeWord → headsComplete (rec.sizeWord % 2 ^ 31) (rec.sizeWord % 2 ^ 31 + 1)
        rec.sizeWord 0 .empty ((rec.wire ++ more).drop 9) = true) := by
  have announced := le_sizeWord_iff rec
  rw [cutAnnouncedMetas, drop_wire, sizeWord_mod readable.writable]
  cases shape : rec.metas with
  | nil =>
    rw [shape] at announced bareMetas
    have plain : ¬2 ^ 31 ≤ rec.sizeWord := fun flagged => announced.mp flagged rfl
    rw [if_neg plain]
    refine ⟨?_, fun flagged => absurd flagged plain⟩
    have nothing : Record.empty = bare := Record.eq_of_fields barePayload.symm bareMetas.symm
    simp [metasBytes, nothing]
  | cons entry rest =>
    rw [shape] at announced bareMetas
    have sizes : ∀ other ∈ entry :: rest, other.1.length ≤ 255 ∧ other.2.length < 2 ^ 31 :=
      fun other member => ⟨readable.short other (shape ▸ member),
        readable.writable.meta_lt other (shape ▸ member)⟩
    have rounds : rest.length <
        (metasBytes (entry :: rest) ++ rec.payload).length + 1 := by
      have count := length_le_length_metasBytes (entry :: rest)
      rw [length_cons] at count
      rw [length_append]
      omega
    have inside : 0 + (metasBytes (entry :: rest)).length ≤
        (metasBytes (entry :: rest) ++ rec.payload).length := by
      rw [length_append]
      omega
    rw [if_pos (announced.mpr (by simp))]
    obtain ⟨cut, heads⟩ := cutMetas_metasBytes rec.sizeWord ncut (rec.payload ++ more) sizes
      (show bare.metas = Record.empty.metas ++ entry :: rest from bareMetas) barePayload
      inside rounds
    rw [cut]
    exact ⟨by simp, fun _ => heads⟩

theorem cutRecord_wire (more : List UInt8) (ncut : Nat) :
    cutRecord maxRecordSize (rec.wire ++ more) ncut =
      { outcome := .record rec, source := more, ncut := ncut + rec.byteSize } := by
  have size := length_wire rec
  have data := sizeWord_mod readable.writable
  rw [byteSize_eq] at size
  have nine : ¬((rec.wire ++ more).take 9).length ≠ 9 := by
    rw [length_take, length_append]
    omega
  have there : ¬(rec.wire ++ more).length < rec.sizeWord % 2 ^ 31 + 9 := by
    rw [length_append]
    omega
  have metas := (cutAnnouncedMetas_wire readable { rec with payload := [] } rfl rfl more
    (ncut + 9)).1
  have payload : rec.sizeWord % 2 ^ 31 - (metasBytes rec.metas).length = rec.payload.length := by
    rw [data, length_append]
    omega
  simp only [cutRecord, copyTo_list, readHead_wire readable,
    remainingBytes_eq, bytes_list, nine, there, if_false, cutBody,
    popFront_list, metas, cutn_list, payload, take_left,
    drop_left]
  rw [Record.byteSize, length_metasBytes]
  congr 1
  omega

theorem headsThere_of_wire {later more : List UInt8}
    (stream : text ++ later = rec.wire ++ more) : headsThere maxRecordSize text = true := by
  rw [headsThere]
  split
  · rfl
  · rename_i tmp valid
    simp only [Bool.or_eq_true, decide_eq_true_eq]
    obtain partly | there := lt_or_ge text.length (tmp % 2 ^ 31 + 9)
    · exact .inl (.inl partly)
    · have same : text.take 9 = (rec.wire ++ more).take 9 := by
        rw [← stream, take_append_of_le_length (by omega)]
      rw [same, readHead_wire readable] at valid
      obtain rfl : rec.sizeWord = tmp := by simpa using valid
      have whole : rec.wire.length ≤ text.length := by
        rw [length_wire, byteSize_eq, ← sizeWord_mod readable.writable]
        omega
      obtain ⟨behind, rfl⟩ : rec.wire <+: text := by
        have front : rec.wire <+: text ++ later := stream ▸ prefix_append ..
        exact prefix_of_prefix_length_le front (prefix_append ..) whole
      obtain plain | announced := lt_or_ge rec.sizeWord (2 ^ 31)
      · exact .inl (.inr plain)
      · exact .inr ((cutAnnouncedMetas_wire readable { rec with payload := [] } rfl rfl
          behind 0).2 announced)

end Wire

/-- The names of a record fit the byte in front of them. -/
def Record.ShortNames (rec : Record) : Prop := ∀ entry ∈ rec.metas, entry.1.length ≤ 255

theorem metas_of_mutableMeta {rec : Record} {name : List UInt8} {withMeta : List UInt8 → Record}
    (added : rec.mutableMeta name = some withMeta) (data : List UInt8) :
    (withMeta data).metas = rec.metas ++ [(name, data)] := by
  rw [Record.mutableMeta] at added
  split at added
  · obtain rfl := Option.some.inj added
    rfl
  · cases added

theorem length_name_cutMetaHead (tmp : Nat) (text : List UInt8) :
    (cutMetaHead tmp text).name.length ≤ 255 := by
  simp only [cutMetaHead, cut1_list, cutn_list, length_take]
  have byte := (text.head?.getD 0).toNat_lt
  omega

theorem shortNames_cutMetas {fuel tmp ncut total : Nat} {rec result : Record}
    (short : rec.ShortNames)
    (cut : (cutMetas dataSize fuel tmp used rec text ncut).result = some (result, total)) :
    result.ShortNames := by
  induction fuel generalizing tmp used rec text ncut with
  | zero => cases cut
  | succ fuel ih =>
    rw [cutMetas] at cut
    simp only [cutn_list] at cut
    split at cut
    · cases cut
    · split at cut
      · cases cut
      · rename_i withMeta added
        have extended : ∀ data, (withMeta data).ShortNames := by
          intro data entry member
          rw [metas_of_mutableMeta added, mem_append, mem_singleton] at member
          rcases member with member | rfl
          · exact short entry member
          · exact length_name_cutMetaHead tmp text
        split at cut
        · exact ih (extended _) cut
        · obtain ⟨rfl, -⟩ : _ = result ∧ _ = total := by simpa using cut
          exact extended _

theorem shortNames_cutRecord {ncut : Nat} {result : Record}
    (cut : (cutRecord maxRecordSize text ncut).outcome = .record result) : result.ShortNames := by
  simp only [cutRecord, copyTo_list] at cut
  split at cut
  · cases cut
  · split at cut
    · cases cut
    · split at cut
      · cases cut
      · simp only [cutBody] at cut
        split at cut
        · cases cut
        · rename_i metas
          rw [cutAnnouncedMetas] at metas
          obtain rfl := Outcome.record.inj cut
          split at metas
          · have short := shortNames_cutMetas (by simp [Record.ShortNames, Record.empty]) metas
            exact short
          · obtain ⟨rfl, -⟩ : Record.empty = _ ∧ 0 = _ := by simpa using metas
            simp [Record.ShortNames, Record.empty]

namespace RecordReader

variable {reader : RecordReader}

theorem shortNames_step (short : ∀ rec ∈ reader.records, rec.ShortNames) :
    ∀ rec ∈ (step maxRecordSize reader).records, rec.ShortNames := by
  rw [step]
  split
  · rw [afterCut]
    split
    · rename_i rec out
      have seen := cutRecord_bytes maxRecordSize reader.cutter reader.ncut
      intro other member
      rcases mem_append.mp member with member | member
      · exact short other member
      · rw [mem_singleton.mp member]
        exact shortNames_cutRecord ((congrArg Cut.outcome seen).trans out)
    · exact short
    · exact short
  · exact short
  · rw [afterRead]
    split <;> exact short
  · exact short

def wires (records : List Record) : List UInt8 := (records.map Record.wire).flatten

theorem foldlM_writeWithoutFlush {records : List Record} {buf stream : List UInt8}
    (wrote : records.foldlM writeWithoutFlush buf = some stream) :
    stream = buf ++ wires records ∧ ∀ rec ∈ records, rec.Writable := by
  induction records generalizing buf with
  | nil =>
    obtain rfl : buf = stream := by simpa using wrote
    simp [wires]
  | cons rec rest ih =>
    obtain ⟨after, first, others⟩ := Option.bind_eq_some_iff.mp wrote
    obtain ⟨rfl, writable⟩ := writeWithoutFlush_eq_some first
    obtain ⟨rfl, writableRest⟩ := ih others
    refine ⟨by simp [wires], fun other member => ?_⟩
    rcases mem_cons.mp member with rfl | member
    · exact writable
    · exact writableRest other member

/-- No read continues the block the cutter is in. -/
def visible (reader : RecordReader) : Bool :=
  match reader.phase with
  | .reading _ => reader.pending.head?.all fun read => !reader.cutter.hides read
  | _ => true

/-- The reader is at the border of two records of the stream: it has returned those in front, in
their sizes, and the others are what is left. -/
structure Between (maxRecordSize : Nat) (records : List Record) (reader : RecordReader) : Prop where
  split : ∃ rest, reader.records ++ rest = records ∧
    reader.cutter.bytes ++ reader.toCome = wires rest ∧ (reader.phase = .ended → rest = [])
  offset : reader.ncut = (reader.records.map Record.byteSize).sum
  phase : reader.phase = .calling .cut ∨ reader.phase = .reading .cut ∨ reader.phase = .ended
  waiting : Waiting maxRecordSize reader

variable {records : List Record}

theorem wires_cons (rec : Record) (rest : List Record) :
    wires (rec :: rest) = rec.wire ++ wires rest := rfl

theorem headsThere_of_wires {rest : List Record} {text later : List UInt8}
    (readable : ∀ rec ∈ rest, rec.Readable maxRecordSize) (stream : text ++ later = wires rest) :
    headsThere maxRecordSize text = true := by
  cases rest with
  | nil =>
    obtain rfl : text = [] := (append_eq_nil_iff.mp stream).1
    rfl
  | cons rec rest => exact headsThere_of_wire (readable rec (by simp)) stream

section

variable (readable : ∀ rec ∈ records, rec.Readable maxRecordSize)
include readable

theorem between_step_cut
    (between : Between maxRecordSize records reader) (phase : reader.phase = .calling .cut) :
    Between maxRecordSize records (step maxRecordSize reader) := by
  obtain ⟨⟨rest, prefixed, stream, -⟩, offset, -, -⟩ := between
  have readableRest : ∀ rec ∈ rest, rec.Readable maxRecordSize := fun rec member =>
    readable rec (prefixed ▸ mem_append_right _ member)
  have heads := headsThere_of_wires readableRest stream
  have waiting := (step_cut phase heads).2
  have seen : cutRecord maxRecordSize reader.cutter.bytes reader.ncut = _ :=
    cutRecord_bytes maxRecordSize reader.cutter reader.ncut
  have more := cutRecord_append reader.ncut reader.toCome heads
  rw [stream] at more
  rw [step, phase] at waiting ⊢
  by_cases short : (cutRecord maxRecordSize reader.cutter.bytes reader.ncut).outcome = .notEnough
  · have same := cutRecord_notEnough short
    rw [seen] at same short
    simp only [Cut.mk.injEq, bytes_cutter] at same
    obtain ⟨out, source, ncut⟩ := same
    rw [afterCut, out] at waiting ⊢
    refine ⟨⟨rest, prefixed, ?_, by simp⟩, ?_, by simp, waiting⟩
    · rw [← stream, ← source]
      rfl
    · rw [← offset, ncut]
  · cases rest with
    | nil =>
      -- nothing is left, so that `CutRecord` cannot decide
      have empty : reader.cutter.bytes = [] := (append_eq_nil_iff.mp stream).1
      rw [empty] at short
      exact absurd rfl short
    | cons rec rest =>
      specialize more short
      rw [wires_cons, cutRecord_wire (readableRest rec (by simp)), seen] at more
      simp only [Cut.mk.injEq, bytes_cutter] at more
      obtain ⟨out, source, ncut⟩ := more
      rw [afterCut, ← out] at waiting ⊢
      refine ⟨⟨rest, by simpa using prefixed, source.symm, by simp [phase]⟩, ?_, by simp [phase],
        waiting⟩
      rw [map_append, List.sum_append, ← offset, ← ncut]
      simp

theorem between_step_read (between : Between maxRecordSize records reader)
    (phase : reader.phase = .reading .cut) (seen : reader.visible = true) :
    Between maxRecordSize records (step maxRecordSize reader) := by
  obtain ⟨⟨rest, prefixed, stream, -⟩, offset, -, waiting⟩ := between
  rw [step, phase]
  simp only [afterRead]
  split
  · rename_i nothing
    refine ⟨⟨rest, prefixed, stream, fun _ => ?_⟩, offset, by simp, trivial⟩
    rw [toCome, nothing, map_nil, flatten_nil, append_nil] at stream
    rw [Waiting, phase] at waiting
    simp only at waiting
    cases rest with
    | nil => rfl
    | cons rec rest =>
      have readableRec := readable rec (prefixed ▸ by simp)
      rw [stream, wires_cons, cutRecord_wire readableRec] at waiting
      cases waiting
  · rename_i read pending shape
    have shown : reader.cutter.hides read = false := by
      simpa [visible, phase, shape] using seen
    refine ⟨⟨rest, prefixed, ?_, by simp⟩, offset, by simp, trivial⟩
    rw [← stream]
    simp [toCome, shape, IOBufCutter.bytes_append shown]

theorem between_step
    (seen : reader.visible = true) (between : Between maxRecordSize records reader) :
    Between maxRecordSize records (step maxRecordSize reader) := by
  rcases between.phase with phase | phase | phase
  · exact between_step_cut readable between phase
  · exact between_step_read readable between phase seen
  · rwa [step, phase]

end

/-- The reader returns exactly the records, and whenever it is about to make a call it has passed
exactly the sizes of those it has returned. -/
def ReadsBack (maxRecordSize : Nat) (reads : List ReadResult) (records : List Record) : Prop :=
  Returns maxRecordSize reads records (records.map Record.byteSize).sum ∧
    ∀ i, ((step maxRecordSize)^[i] (start reads)).ncut =
      (((step maxRecordSize)^[i] (start reads)).records.map Record.byteSize).sum

/-- Records that the writer accepted and that do not exceed the largest size are read back as they
were, whatever they contain, exactly when all names have at most 255 bytes. -/
theorem readsBack_iff (maxRecordSize : Nat) (records : List Record) (stream : List UInt8)
    (written : records.foldlM writeWithoutFlush [] = some stream)
    (fits : ∀ rec ∈ records, rec.byteSize - 9 ≤ maxRecordSize) (reads : List ReadResult)
    (delivered : (reads.map ReadResult.bytes).flatten = stream)
    (seen : ∀ i, ((step maxRecordSize)^[i] (start reads)).visible = true) :
    ReadsBack maxRecordSize reads records ↔
      ∀ rec ∈ records, ∀ entry ∈ rec.metas, entry.1.length ≤ 255 := by
  obtain ⟨rfl, writable⟩ := foldlM_writeWithoutFlush written
  constructor
  · rintro ⟨⟨n, -, returned, -⟩, -⟩
    have short : ∀ rec ∈ ((step maxRecordSize)^[n] (start reads)).records, rec.ShortNames :=
      iterate_invariant
        (fun reader : RecordReader => ∀ rec ∈ reader.records, rec.ShortNames)
        (by simp [start]) (fun _ (_ : True) holds => shortNames_step holds) (fun _ => trivial) n
    rwa [returned] at short
  · intro short
    have readable : ∀ rec ∈ records, rec.Readable maxRecordSize := by
      intro rec member
      refine ⟨writable rec member, ?_, short rec member⟩
      have size := fits rec member
      rw [byteSize_eq] at size
      omega
    have atStart : Between maxRecordSize records (start reads) :=
      ⟨⟨records, rfl, by simpa [start, toCome] using delivered, by simp [start]⟩, rfl,
        .inl rfl, trivial⟩
    have between := iterate_invariant (Between maxRecordSize records) atStart
      (fun _ shown holds => between_step readable shown holds) seen
    refine ⟨?_, fun i => (between i).offset⟩
    obtain ⟨n, ended⟩ := exists_ended maxRecordSize (start reads)
    obtain ⟨⟨rest, prefixed, -, last⟩, offset, -, -⟩ := between n
    rw [last ended, append_nil] at prefixed
    exact ⟨n, ended, prefixed, by rw [offset, prefixed]⟩

/-- A record with the metas `a` and `bc` whose payload is the magic. -/
def twoMetas : Record where
  payload := recordMagic
  metas := [([97], [1, 2]), ([98, 99], [])]
  distinct := by decide
  named := by decide

/-- Two records, delivered in two reads that are cut inside the first and fill different blocks. -/
theorem readsBack_iff_twoMetas :
    (∀ rec ∈ [twoMetas, .empty], ∀ entry ∈ rec.metas, entry.1.length ≤ 255) ∧
      ReadsBack 100 [.inBlock false ((twoMetas.wire ++ Record.empty.wire).take 12),
        .inBlock false ((twoMetas.wire ++ Record.empty.wire).drop 12)] [twoMetas, .empty] := by
  have short : ∀ rec ∈ [twoMetas, .empty], ∀ entry ∈ rec.metas, entry.1.length ≤ 255 := by
    decide
  refine ⟨short, (readsBack_iff 100 _ (twoMetas.wire ++ Record.empty.wire) ?_ ?_ _ ?_ ?_).mpr short⟩
  · decide +kernel
  · decide
  · decide +kernel
  · exact forall_of_ended (fun reader => reader.visible = true) 8 (by decide +kernel)
      (by decide +kernel)

/-- A record whose only meta has a name of 256 bytes. -/
def longName : Record where
  payload := []
  metas := [(List.replicate 256 97, [])]
  distinct := by decide
  named := by decide +kernel

/-- The writer accepts the record with the long name, the reader does not return it. -/
theorem longName_lost : (writeWithoutFlush [] longName).isSome ∧ longName.byteSize = 270 ∧
      Returns 67108864 [.inBlock false longName.wire] [] 267 := by
  refine ⟨?_, ?_, 6, ?_⟩ <;> decide +kernel

end RecordReader

end RecordIO
end McBrpc
