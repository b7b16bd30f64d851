import McBrpc.Details.HpackIndexTable

/-!
# Encoding and decoding headers

`HPacker::Encode` writes a header as an index into the tables or as a literal, `HPacker::Decode`
reads one header back.  Each side keeps its dynamic table by itself.
-/

namespace McBrpc.Hpack

open List IndexTable Nat

inductive HeaderIndexPolicy where
  | indexHeader
  | notIndexHeader
  | neverIndexHeader
deriving DecidableEq, Repr

structure HPackOptions where
  indexPolicy : HeaderIndexPolicy := .indexHeader
  encodeName : Bool := false
  encodeValue : Bool := false
deriving DecidableEq, Repr

structure HPacker where
  encodeTable : IndexTable
  decodeTable : IndexTable

/-- A positive `int`. -/
def isPositive (index : Nat) : Bool := decide (0 < index ∧ index < 2 ^ 31)

namespace HPacker

/-- `Init`; a `FlatMap` cannot be initialised with no bucket. -/
def init (maxTableSize : Nat) : Option HPacker :=
  if maxTableSize / 34 = 0 then
    none
  else
    some ⟨new staticTable.endIndex true maxTableSize (maxTableSize / 34),
      new staticTable.endIndex false maxTableSize (maxTableSize / 34)⟩

variable (p : HPacker)

def findHeaderFromIndexTable (h : Header) : Nat :=
  if isPositive (staticTable.getIndexOfHeader h) then
    staticTable.getIndexOfHeader h
  else
    p.encodeTable.getIndexOfHeader h

def findNameFromIndexTable (name : List UInt8) : Nat :=
  if isPositive (staticTable.getIndexOfName name) then
    staticTable.getIndexOfName name
  else
    p.encodeTable.getIndexOfName name

/-- The kind of a literal field and the index of its name. -/
def encodeLiteralKind (indexPolicy : HeaderIndexPolicy) (nameIndex : Nat) : List UInt8 :=
  match indexPolicy with
  | .indexHeader => encodeInteger 0x40 6 nameIndex
  | .notIndexHeader => encodeInteger 0x00 4 nameIndex
  | .neverIndexHeader => encodeInteger 0x10 4 nameIndex

/-- The bytes of a header that is not replaced by an index. -/
def encodeLiteral (header : Header) (options : HPackOptions) (nameIndex : Nat) : List UInt8 :=
  encodeLiteralKind options.indexPolicy nameIndex ++
    (if nameIndex = 0 then encodeString true header.name options.encodeName else []) ++
    encodeString false header.value options.encodeValue

/-- `Encode`: the bytes appended to `out`. -/
def encode (header : Header) (options : HPackOptions) : Option (List UInt8 × HPacker) :=
  let index := p.findHeaderFromIndexTable header
  if options.indexPolicy ≠ .neverIndexHeader ∧ isPositive index = true then
    some (encodeInteger 0x80 7 index, p)
  else do
    let encodeTable ← if options.indexPolicy = .indexHeader then p.encodeTable.addHeader header
      else some p.encodeTable
    some (encodeLiteral header options (p.findNameFromIndexTable header.name),
      { p with encodeTable := encodeTable })

def headerAt (p : HPacker) (index : Nat) : Option Header :=
  if p.decodeTable.startIndex ≤ index then p.decodeTable.headerAt index
  else staticTable.headerAt index

/-- The name of a literal field: the one at an index, or a string. -/
def decodeName (index : Nat) (iter : List UInt8) : Reading (List UInt8) :=
  if index = 0 then
    (decodeString iter).strict.bind fun name iter => .value (tolower name) iter
  else
    match p.headerAt index with
    | none => .malformed
    | some indexedHeader => .value indexedHeader.name iter

/-- `DecodeWithKnownPrefix`, which refuses a field that is not complete. -/
def decodeWithKnownPrefix (prefixSize : Nat) (iter : List UInt8) : Reading Header :=
  (decodeInteger prefixSize iter).strict.bind fun index iter =>
    (p.decodeName index iter).bind fun name iter =>
      (decodeString iter).strict.bind fun value iter => .value ⟨name, value⟩ iter

def decodeIndexed (iter : List UInt8) : Reading Header :=
  (decodeInteger 7 iter).bind fun index iter =>
    match p.headerAt index with
    | none => .malformed
    | some indexedHeader => .value indexedHeader iter

def defaultHeaderTableSize : Nat := 4096

/-- `Decode`, by the leading bits of the first byte.  An incomplete field has used up the
iterator.  There is no result where a table operation reads through a null pointer. -/
def decode : Nat → HPacker → List UInt8 → Option (Reading Header × HPacker)
  | 0, p, _ => some (.incomplete, p)
  | _ + 1, p, [] => some (.incomplete, p)
  | fuel + 1, p, first :: rest =>
    if 128 ≤ first.toNat then
      some (p.decodeIndexed (first :: rest), p)
    else if 64 ≤ first.toNat then
      match p.decodeWithKnownPrefix 6 (first :: rest) with
      | .value h rest =>
        (p.decodeTable.addHeader h).map fun t => (.value h rest, { p with decodeTable := t })
      | _ => some (.malformed, p)
    else if 32 ≤ first.toNat then
      match decodeInteger 5 (first :: rest) with
      | .value maxSize rest =>
        if defaultHeaderTableSize < maxSize then
          some (.malformed, p)
        else
          (p.decodeTable.resetMaxSize maxSize).bind fun t =>
            decode fuel { p with decodeTable := t } rest
      | .incomplete => some (.incomplete, p)
      | .malformed => some (.malformed, p)
    else
      some (p.decodeWithKnownPrefix 4 (first :: rest), p)

/-- What a loop over a header block leaves: the headers it accepted, the bytes it did not read and
whether it got to the end. -/
structure Consumed where
  packer : HPacker
  headers : List Header
  bytesLeft : List UInt8
  ok : Bool

/-- Decode headers while there are bytes and each header is accepted.  It stops without an error at
a field that is not complete. -/
def consume (accept : Header → Bool) : Nat → HPacker → List UInt8 → Option Consumed
  | 0, p, it => some ⟨p, [], it, true⟩
  | fuel + 1, p, it =>
    if it = [] then
      some ⟨p, [], [], true⟩
    else
      match p.decode it.length it with
      | none => none
      | some (.malformed, p) => some ⟨p, [], it, false⟩
      | some (.incomplete, p) => some ⟨p, [], [], true⟩
      | some (.value h it, p) =>
        if accept h then
          (consume accept fuel p it).map fun c => { c with headers := h :: c.headers }
        else
          some ⟨p, [], it, false⟩

@[simp]
theorem consume_nil (accept : Header → Bool) (fuel : Nat) (p : HPacker) :
    p.consume accept fuel [] = some ⟨p, [], [], true⟩ := by
  cases fuel <;> rfl

theorem consume_value {accept : Header → Bool} {p p' : HPacker} {it rest : List UInt8} {h : Header}
    (fuel : Nat) (ne : it ≠ []) (read : p.decode it.length it = some (.value h rest, p'))
    (taken : accept h = true) :
    p.consume accept (fuel + 1) it =
      (p'.consume accept fuel rest).map fun c => { c with headers := h :: c.headers } := by
  rw [consume, if_neg ne, read]
  simp [taken]

end HPacker

section Sync

/-- The sender's encode table and the receiver's decode table hold the same entries, up to the case
of the names, and all of them satisfy `admits`. -/
structure Synced (maxSize : Nat) (admits : Header → Prop) (sender receiver : IndexTable) :
    Prop where
  sender_lawful : sender.Lawful
  receiver_lawful : receiver.Lawful
  sender_setup : sender.setup = (62, true, maxSize, maxSize / 34)
  receiver_setup : receiver.setup = (62, false, maxSize, maxSize / 34)
  queue_eq : receiver.headerQueue = sender.headerQueue.map Header.lowered
  addTimes_eq : receiver.addTimes = sender.addTimes
  length_le : sender.headerQueue.length ≤ maxSize / 34
  admitted : ∀ entry ∈ sender.headerQueue, admits entry

variable {maxSize : Nat} {admits : Header → Prop} {sender receiver : IndexTable}

theorem synced_new (maxSize : Nat) (admits : Header → Prop) :
    Synced maxSize admits (new 62 true maxSize (maxSize / 34))
      (new 62 false maxSize (maxSize / 34)) :=
  ⟨lawful_new .., lawful_new .., rfl, rfl, rfl, rfl, zero_le _,
    fun _ mem => absurd mem not_mem_nil⟩

theorem Synced.addHeader (synced : Synced maxSize admits sender receiver)
    (large : ∀ entry, admits entry → 34 ≤ headerSize entry) {h : Header} (admitted : admits h)
    (times : sender.addTimes < 2 ^ 31) :
    ∃ sender' receiver', sender.addHeader h = some sender' ∧
      receiver.addHeader h.lowered = some receiver' ∧
      Synced maxSize admits sender' receiver' ∧ sender'.addTimes ≤ sender.addTimes + 1 := by
  have sender_max : sender.maxSize = maxSize :=
    congrArg (fun setup => setup.2.2.1) synced.sender_setup
  have sender_cap : sender.capacity = maxSize / 34 :=
    congrArg (fun setup => setup.2.2.2) synced.sender_setup
  have receiver_max : receiver.maxSize = maxSize :=
    congrArg (fun setup => setup.2.2.1) synced.receiver_setup
  have receiver_cap : receiver.capacity = maxSize / 34 :=
    congrArg (fun setup => setup.2.2.2) synced.receiver_setup
  have place (fits : headerSize h ≤ maxSize) :
      (survivors maxSize (headerSize h) sender.headerQueue).length < maxSize / 34 :=
    length_survivors_lt (fun entry mem => large entry (synced.admitted entry mem))
      (large h admitted) fits
  obtain ⟨sender', sender_eq, sender_lawful, sender_queue, sender_setup, sender_times⟩ :=
    addHeader_spec synced.sender_lawful h times fun fits => by
      rw [sender_max] at fits
      rw [sender_max, sender_cap]
      exact place fits
  obtain ⟨receiver', receiver_eq, receiver_lawful, receiver_queue, receiver_setup,
      receiver_times⟩ :=
    addHeader_spec synced.receiver_lawful h.lowered (synced.addTimes_eq ▸ times)
      fun fits => by
        rw [receiver_max, headerSize_lowered] at fits
        rw [receiver_max, receiver_cap, headerSize_lowered, synced.queue_eq, survivors_map_lowered,
          length_map]
        exact place fits
  rw [sender_max] at sender_queue sender_times
  rw [receiver_max, synced.queue_eq, inserted_map_lowered] at receiver_queue
  rw [receiver_max, headerSize_lowered, synced.addTimes_eq] at receiver_times
  refine ⟨sender', receiver', sender_eq, receiver_eq, ⟨sender_lawful, receiver_lawful,
    sender_setup.trans synced.sender_setup, receiver_setup.trans synced.receiver_setup,
    by rw [receiver_queue, sender_queue], by rw [receiver_times, sender_times], ?_, ?_⟩, ?_⟩
  · rw [sender_queue, inserted]
    split
    · exact le_trans (length_survivors_le ..) synced.length_le
    · next fits =>
      rw [length_append, length_singleton]
      exact place (not_lt.mp fits)
  · intro entry mem
    rw [sender_queue] at mem
    rcases mem_inserted mem with old | rfl
    · exact synced.admitted entry old
    · exact admitted
  · rw [sender_times]
    split <;> omega

end Sync

section Lookup

variable {maxSize : Nat} {admits : Header → Prop} {p q : HPacker}

theorem headerAt_static (start : q.decodeTable.startIndex = 62) {index : Nat} {entry : Header}
    (found : staticTable.headerAt index = some entry) (below : index < staticTable.endIndex) :
    q.headerAt index = some entry.lowered := by
  rw [endIndex_staticTable] at below
  have member := mem_headerQueue_of_headerAt found
  rw [staticTable_spec.2.1, mem_reverse] at member
  rw [HPacker.headerAt, start, if_neg (not_le.mpr below), found,
    lowered_of_mem_staticHeaders member]

theorem headerAt_dynamic (synced : Synced maxSize admits p.encodeTable q.decodeTable) {index : Nat}
    {entry : Header} (found : p.encodeTable.headerAt index = some entry)
    (above : p.encodeTable.startIndex ≤ index) : q.headerAt index = some entry.lowered := by
  have sender_start : p.encodeTable.startIndex = 62 :=
    congrArg (fun setup => setup.1) synced.sender_setup
  have receiver_start : q.decodeTable.startIndex = 62 :=
    congrArg (fun setup => setup.1) synced.receiver_setup
  rw [sender_start] at above
  rw [headerAt, sender_start, if_neg (not_lt.mpr above)] at found
  rw [HPacker.headerAt, receiver_start, if_pos above, headerAt, receiver_start,
    if_neg (not_lt.mpr above), synced.queue_eq, ← map_reverse, getElem?_map, found]
  rfl

theorem searchable_staticTable : staticTable.Searchable := by
  obtain ⟨lawful, -, setup_eq⟩ := staticTable_spec
  have start_eq : staticTable.startIndex = 1 := congrArg (fun setup => setup.1) setup_eq
  exact ⟨lawful, congrArg (fun setup => setup.2.1) setup_eq, by rw [start_eq]; decide,
    by rw [start_eq]; decide⟩

variable (synced : Synced maxSize admits p.encodeTable q.decodeTable)

include synced

theorem Synced.resolves {lookup : IndexTable → Nat} {holds : Header → Prop}
    (finds : ∀ t : IndexTable, t.Searchable → lookup t ≠ 0 → t.Finds (lookup t) holds)
    {index : Nat} (index_eq : index = if isPositive (lookup staticTable) then lookup staticTable
      else lookup p.encodeTable) (pos : index ≠ 0) :
    ∃ entry, q.headerAt index = some entry.lowered ∧ holds entry ∧ index < 62 + maxSize / 34 := by
  have start_eq : p.encodeTable.startIndex = 62 :=
    congrArg (fun setup => setup.1) synced.sender_setup
  split at index_eq
  · subst index_eq
    obtain ⟨entry, found, holds, -, below⟩ := finds _ searchable_staticTable pos
    refine ⟨entry, headerAt_static ?_ found below, holds, ?_⟩
    · exact congrArg (fun setup => setup.1) synced.receiver_setup
    · rw [endIndex_staticTable] at below
      omega
  · subst index_eq
    have searchable : p.encodeTable.Searchable :=
      ⟨synced.sender_lawful, congrArg (fun setup => setup.2.1) synced.sender_setup,
        by rw [start_eq]; decide, by rw [start_eq]; decide⟩
    obtain ⟨entry, found, holds, above, below⟩ := finds _ searchable pos
    rw [endIndex, start_eq] at below
    exact ⟨entry, headerAt_dynamic synced found above, holds,
      Nat.lt_of_lt_of_le below (Nat.add_le_add_left synced.length_le 62)⟩

theorem findHeaderFromIndexTable_spec {h : Header} (noNul : 0 ∉ h.name)
    (pos : p.findHeaderFromIndexTable h ≠ 0) :
    q.headerAt (p.findHeaderFromIndexTable h) = some h.lowered ∧
      p.findHeaderFromIndexTable h < 62 + maxSize / 34 := by
  obtain ⟨entry, found, lowered_eq, below⟩ :=
    synced.resolves (fun _ searchable => searchable.getIndexOfHeader noNul) rfl pos
  exact ⟨found.trans (congrArg some lowered_eq), below⟩

theorem findNameFromIndexTable_spec {name : List UInt8} (noNul : 0 ∉ name)
    (pos : p.findNameFromIndexTable name ≠ 0) :
    (∃ entry, q.headerAt (p.findNameFromIndexTable name) = some entry ∧
      entry.name = tolower name) ∧ p.findNameFromIndexTable name < 62 + maxSize / 34 := by
  obtain ⟨entry, found, name_eq, below⟩ :=
    synced.resolves (fun _ searchable => searchable.getIndexOfName noNul) rfl pos
  exact ⟨⟨entry.lowered, found, name_eq⟩, below⟩

end Lookup

theorem asciiTolower_asciiTolower (c : UInt8) : asciiTolower (asciiTolower c) = asciiTolower c := by
  by_cases upper : 65 ≤ c ∧ c ≤ 90
  · have here : asciiTolower c = c + 32 := if_pos upper
    have lower : ¬ (65 ≤ c + 32 ∧ c + 32 ≤ 90) := by
      simp only [UInt8.le_iff_toNat_le, UInt8.toNat_add, UInt8.reduceToNat] at upper ⊢
      omega
    rw [here]
    exact if_neg lower
  · have here : asciiTolower c = c := if_neg upper
    rw [here, here]

theorem tolower_tolower (s : List UInt8) : tolower (tolower s) = tolower s := by
  rw [tolower, tolower, map_map]
  exact map_congr_left fun c _ => asciiTolower_asciiTolower c

/-- A header that the other side can read back: a name that is a C string, strings below the limit
of the decoder, and for an entry of the dynamic table at least 34 bytes. -/
structure Codable (field : Header × HPackOptions) : Prop where
  noNul : 0 ∉ field.1.name
  name_short : encodedLength (tolower field.1.name) field.2.encodeName < maxHpackInteger
  value_short : encodedLength field.1.value field.2.encodeValue < maxHpackInteger
  large : field.2.indexPolicy = .indexHeader → 34 ≤ headerSize field.1

instance (field : Header × HPackOptions) : Decidable (Codable field) :=
  decidable_of_iff
    (0 ∉ field.1.name ∧ encodedLength (tolower field.1.name) field.2.encodeName < maxHpackInteger ∧
      encodedLength field.1.value field.2.encodeValue < maxHpackInteger ∧
      (field.2.indexPolicy = .indexHeader → 34 ≤ headerSize field.1))
    ⟨fun ⟨noNul, name, value, large⟩ => ⟨noNul, name, value, large⟩,
      fun codable => ⟨codable.noNul, codable.name_short, codable.value_short, codable.large⟩⟩

variable {maxSize : Nat} {admits : Header → Prop} {p q : HPacker} {h : Header}
  {options : HPackOptions}

section

variable (synced : Synced maxSize admits p.encodeTable q.decodeTable)
include synced

theorem decodeName_spec (codable : Codable (h, options)) (rest : List UInt8) :
    q.decodeName (p.findNameFromIndexTable h.name)
        ((if p.findNameFromIndexTable h.name = 0 then encodeString true h.name options.encodeName
          else []) ++ rest) = .value (tolower h.name) rest := by
  by_cases new : p.findNameFromIndexTable h.name = 0
  · have read := decodeString_encodeBytes rest codable.name_short
    rw [HPacker.decodeName, if_pos new, if_pos new, encodeString, if_pos rfl, read,
      Reading.strict_value, Reading.bind_value, tolower_tolower]
  · obtain ⟨⟨entry, found, name_eq⟩, -⟩ :=
      findNameFromIndexTable_spec synced codable.noNul new
    rw [HPacker.decodeName, if_neg new, if_neg new, found, nil_append]
    simp [name_eq]

theorem nameIndex_lt (indexable : 61 + maxSize / 34 < maxHpackInteger) (noNul : 0 ∉ h.name) :
    p.findNameFromIndexTable h.name < maxHpackInteger := by
  by_cases new : p.findNameFromIndexTable h.name = 0
  · rw [new]
    decide
  · have := (findNameFromIndexTable_spec synced noNul new).2
    omega

theorem decodeWithKnownPrefix_spec (indexable : 61 + maxSize / 34 < maxHpackInteger)
    (codable : Codable (h, options)) {msb size : Nat} (room : msb + 2 ^ size ≤ 256)
    (aligned : 2 ^ size ∣ msb) (rest : List UInt8) :
    q.decodeWithKnownPrefix size
        (encodeInteger msb size (p.findNameFromIndexTable h.name) ++
          (if p.findNameFromIndexTable h.name = 0 then
            encodeString true h.name options.encodeName else []) ++
          encodeString false h.value options.encodeValue ++ rest) =
      .value h.lowered rest := by
  have small := nameIndex_lt synced indexable codable.noNul
  have value_read : decodeString (encodeString false h.value options.encodeValue ++ rest) =
      .value h.value rest :=
    decodeString_encodeBytes rest codable.value_short
  rw [append_assoc, append_assoc, HPacker.decodeWithKnownPrefix,
    decodeInteger_encodeInteger _ room aligned small, Reading.strict_value, Reading.bind_value,
    decodeName_spec synced codable, Reading.bind_value, value_read]
  rfl

end

/-- The table of the receiver after a header that was sent under a policy. -/
structure Delivered (maxSize : Nat) (admits : Header → Prop) (q : HPacker) (h : Header)
    (bytes : List UInt8) (sender : IndexTable) : Prop where
  nonempty : bytes ≠ []
  delivered : ∃ receiver, Synced maxSize admits sender receiver ∧
    ∀ rest fuel, q.decode (fuel + 1) (bytes ++ rest) =
      some (.value h.lowered rest, { q with decodeTable := receiver })

variable (synced : Synced maxSize admits p.encodeTable q.decodeTable)
include synced

variable (indexable : 61 + maxSize / 34 < maxHpackInteger)
include indexable

theorem delivered_indexed (noNul : 0 ∉ h.name)
    (pos : isPositive (p.findHeaderFromIndexTable h) = true) :
    Delivered maxSize admits q h (encodeInteger 0x80 7 (p.findHeaderFromIndexTable h))
      p.encodeTable := by
  simp only [isPositive, decide_eq_true_eq] at pos
  obtain ⟨found, below⟩ := findHeaderFromIndexTable_spec synced noNul (by omega)
  have room : 0x80 + 2 ^ 7 ≤ 256 := by decide
  have aligned : 2 ^ 7 ∣ 0x80 := by decide
  obtain ⟨first, more, cons_eq, above, -⟩ :=
    encodeInteger_eq_cons (p.findHeaderFromIndexTable h) room aligned
  refine ⟨by simp [cons_eq], q.decodeTable, synced, fun rest fuel => ?_⟩
  have read := decodeInteger_encodeInteger rest room aligned
    (show p.findHeaderFromIndexTable h < maxHpackInteger by omega)
  rw [cons_eq, cons_append] at read ⊢
  rw [HPacker.decode, if_pos above, HPacker.decodeIndexed, read, Reading.bind_value, found]

section

variable (codable : Codable (h, options))
include codable

theorem encodeLiteral_eq_cons
    {msb size : Nat} (room : msb + 2 ^ size ≤ 256) (aligned : 2 ^ size ∣ msb)
    (kind_eq : HPacker.encodeLiteralKind options.indexPolicy (p.findNameFromIndexTable h.name) =
      encodeInteger msb size (p.findNameFromIndexTable h.name)) :
    ∃ (first : UInt8) (more : List UInt8),
      HPacker.encodeLiteral h options (p.findNameFromIndexTable h.name) = first :: more ∧
      msb ≤ first.toNat ∧ first.toNat < msb + 2 ^ size ∧
      ∀ rest, q.decodeWithKnownPrefix size (first :: (more ++ rest)) =
        .value h.lowered rest := by
  obtain ⟨first, more, cons_eq, above, below⟩ :=
    encodeInteger_eq_cons (p.findNameFromIndexTable h.name) room aligned
  refine ⟨first, _, by rw [HPacker.encodeLiteral, kind_eq, cons_eq]; rfl, above, below,
    fun rest => ?_⟩
  have read := decodeWithKnownPrefix_spec synced indexable codable room aligned rest
  rwa [cons_eq] at read

theorem delivered_unindexed {msb : Nat} (kind : msb = 0 ∨ msb = 16)
    (kind_eq : HPacker.encodeLiteralKind options.indexPolicy (p.findNameFromIndexTable h.name) =
      encodeInteger msb 4 (p.findNameFromIndexTable h.name)) :
    Delivered maxSize admits q h
      (HPacker.encodeLiteral h options (p.findNameFromIndexTable h.name)) p.encodeTable := by
  obtain ⟨first, more, bytes_eq, -, below, read⟩ :=
    encodeLiteral_eq_cons synced indexable codable (by omega) (by omega) kind_eq
  rw [bytes_eq]
  refine ⟨cons_ne_nil _ _, q.decodeTable, synced, fun rest fuel => ?_⟩
  rw [cons_append, HPacker.decode, if_neg (by omega), if_neg (by omega), if_neg (by omega), read]

theorem delivered_added (policy : options.indexPolicy = .indexHeader) {sender receiver : IndexTable}
    (added : q.decodeTable.addHeader h.lowered = some receiver)
    (after : Synced maxSize admits sender receiver) :
    Delivered maxSize admits q h
      (HPacker.encodeLiteral h options (p.findNameFromIndexTable h.name)) sender := by
  obtain ⟨first, more, bytes_eq, above, below, read⟩ :=
    @encodeLiteral_eq_cons _ _ _ _ h options synced indexable codable 0x40 6 (by decide)
      (by decide) (by rw [policy]; rfl)
  rw [bytes_eq]
  refine ⟨cons_ne_nil _ _, receiver, after, fun rest fuel => ?_⟩
  rw [cons_append, HPacker.decode, if_neg (by omega), if_pos above, read]
  simp [added]

end

theorem encode_spec (large : ∀ entry, admits entry → 34 ≤ headerSize entry)
    (codable : Codable (h, options)) (admitted : options.indexPolicy = .indexHeader → admits h)
    (times : p.encodeTable.addTimes < 2 ^ 31) :
    ∃ bytes p', p.encode h options = some (bytes, p') ∧
      Delivered maxSize admits q h bytes p'.encodeTable ∧
      p'.encodeTable.addTimes ≤ p.encodeTable.addTimes + 1 := by
  unfold HPacker.encode
  simp only
  split
  · next indexed =>
    exact ⟨_, p, rfl, delivered_indexed synced indexable codable.noNul indexed.2, le_succ _⟩
  · cases policy : options.indexPolicy with
    | indexHeader =>
      obtain ⟨sender, receiver, sender_eq, receiver_eq, after, later⟩ :=
        synced.addHeader large (admitted policy) times
      exact ⟨_, { p with encodeTable := sender }, by simp [sender_eq],
        delivered_added synced indexable codable policy receiver_eq after, later⟩
    | notIndexHeader =>
      exact ⟨_, p, by simp,
        delivered_unindexed synced indexable codable (.inl rfl) (by rw [policy]; rfl),
        le_succ _⟩
    | neverIndexHeader =>
      exact ⟨_, p, by simp,
        delivered_unindexed synced indexable codable (.inr rfl) (by rw [policy]; rfl),
        le_succ _⟩

end McBrpc.Hpack
