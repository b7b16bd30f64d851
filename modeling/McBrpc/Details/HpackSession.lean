import McBrpc.Details.HpackCodec

/-!
# Header blocks between two peers

One `HPacker` encodes the header blocks of a connection and another one decodes them, both
initialised with the same table size.  As long as the headers can be coded at all, every block
arrives as it was sent and the two dynamic tables stay in step.
-/

namespace McBrpc.Hpack

open List IndexTable HPacker

abbrev Block := List (Header × HPackOptions)

namespace HPacker

/-- Encode the headers of a block one after the other. -/
def encodeBlock : HPacker → Block → Option (List UInt8 × HPacker)
  | p, [] => some ([], p)
  | p, (header, options) :: fields => do
    let (bytes, p) ← p.encode header options
    let (more, p) ← encodeBlock p fields
    some (bytes ++ more, p)

def decodeBlock (p : HPacker) (bytes : List UInt8) : Option (List Header × HPacker) :=
  (p.consume (fun _ => true) bytes.length bytes).bind fun c =>
    if c.ok then some (c.headers, c.packer) else none

end HPacker

/-- The two sides of a connection and what went over it. -/
structure Link where
  encoder : HPacker
  decoder : HPacker
  received : List (List Header)

namespace Link

/-- Both sides initialised with the same table size. -/
def init (maxTableSize : Nat) : Option Link := do
  let encoder ← HPacker.init maxTableSize
  let decoder ← HPacker.init maxTableSize
  some ⟨encoder, decoder, []⟩

def send (link : Link) (block : Block) : Option Link := do
  let (bytes, encoder) ← link.encoder.encodeBlock block
  let (headers, decoder) ← link.decoder.decodeBlock bytes
  some ⟨encoder, decoder, link.received ++ [headers]⟩

end Link

section Block

variable {maxSize : Nat} {admits : Header → Prop} {p q : HPacker} {link : Link}
  (indexable : 61 + maxSize / 34 < maxHpackInteger)
  (large : ∀ entry, admits entry → 34 ≤ headerSize entry)
include indexable large

/-- A block is read back, and the tables are in step again behind it. -/
theorem encodeBlock_spec (synced : Synced maxSize admits p.encodeTable q.decodeTable)
    (block : Block) (codable : ∀ field ∈ block, Codable field ∧
      (field.2.indexPolicy = .indexHeader → admits field.1))
    (times : p.encodeTable.addTimes + block.length ≤ 2 ^ 31) :
    ∃ bytes p' q', p.encodeBlock block = some (bytes, p') ∧
      Synced maxSize admits p'.encodeTable q'.decodeTable ∧
      p'.encodeTable.addTimes ≤ p.encodeTable.addTimes + block.length ∧
      ∀ fuel, bytes.length ≤ fuel → q.consume (fun _ => true) fuel bytes =
        some ⟨q', block.map (·.1.lowered), [], true⟩ := by
  induction block generalizing p q with
  | nil =>
    exact ⟨[], p, q, rfl, synced, Nat.le_refl _, fun fuel _ => HPacker.consume_nil ..⟩
  | cons field block ih =>
    rw [length_cons] at times
    obtain ⟨own, admitted⟩ := codable _ mem_cons_self
    obtain ⟨bytes, next, encode_eq, ⟨ne, receiver, after, decode_eq⟩, next_times⟩ :=
      encode_spec synced indexable large own admitted (by omega)
    obtain ⟨more, p', q', block_eq, final, final_times, consume_eq⟩ :=
      @ih next { q with decodeTable := receiver } after
        (fun field mem => codable field (mem_cons_of_mem _ mem)) (by omega)
    refine ⟨bytes ++ more, p', q', ?_, final, by rw [length_cons]; omega,
      fun fuel enough => ?_⟩
    · simp [encodeBlock, encode_eq, block_eq]
    · have positive := length_pos_iff.mpr ne
      rw [length_append] at enough
      obtain ⟨fuel, rfl⟩ : ∃ less, fuel = less + 1 := ⟨fuel - 1, by omega⟩
      obtain ⟨left, left_eq⟩ : ∃ left, (bytes ++ more).length = left + 1 :=
        ⟨(bytes ++ more).length - 1, by rw [length_append]; omega⟩
      have read := decode_eq more left
      rw [← left_eq] at read
      rw [consume_value fuel (by simp [ne]) read rfl, consume_eq fuel (by omega)]
      rfl

theorem Link.send_spec
    (synced : Synced maxSize admits link.encoder.encodeTable link.decoder.decodeTable)
    (block : Block) (codable : ∀ field ∈ block, Codable field ∧
      (field.2.indexPolicy = .indexHeader → admits field.1))
    (times : link.encoder.encodeTable.addTimes + block.length ≤ 2 ^ 31) :
    ∃ after, link.send block = some after ∧
      Synced maxSize admits after.encoder.encodeTable after.decoder.decodeTable ∧
      after.encoder.encodeTable.addTimes ≤ link.encoder.encodeTable.addTimes + block.length ∧
      after.received = link.received ++ [block.map (·.1.lowered)] := by
  obtain ⟨bytes, encoder, decoder, encode_eq, after, later, consume_eq⟩ :=
    encodeBlock_spec indexable large synced block codable times
  have decode_eq : link.decoder.decodeBlock bytes =
      some (block.map (·.1.lowered), decoder) := by
    rw [HPacker.decodeBlock, consume_eq _ (Nat.le_refl _)]
    rfl
  exact ⟨⟨encoder, decoder, link.received ++ [block.map (·.1.lowered)]⟩,
    by simp [send, encode_eq, decode_eq], after, later, rfl⟩

theorem Link.foldlM_send_spec
    (synced : Synced maxSize admits link.encoder.encodeTable link.decoder.decodeTable)
    (blocks : List Block)
    (codable : ∀ block ∈ blocks, ∀ field ∈ block, Codable field ∧
      (field.2.indexPolicy = .indexHeader → admits field.1))
    (times : link.encoder.encodeTable.addTimes + blocks.flatten.length ≤ 2 ^ 31) :
    ∃ after, blocks.foldlM Link.send link = some after ∧
      Synced maxSize admits after.encoder.encodeTable after.decoder.decodeTable ∧
      after.received = link.received ++ blocks.map (·.map (·.1.lowered)) := by
  induction blocks generalizing link with
  | nil => exact ⟨link, rfl, synced, by simp⟩
  | cons block blocks ih =>
    rw [flatten_cons, length_append] at times
    obtain ⟨next, send_eq, next_synced, next_times, next_received⟩ := Link.send_spec indexable
      large synced block (codable block mem_cons_self) (by omega)
    obtain ⟨after, fold_eq, after_synced, after_received⟩ := ih next_synced
      (fun other mem => codable other (mem_cons_of_mem _ mem)) (by omega)
    refine ⟨after, ?_, after_synced, ?_⟩
    · rw [foldlM_cons, send_eq]
      exact fold_eq
    · rw [after_received, next_received, append_assoc, map_cons]
      rfl

end Block

theorem Link.init_eq {limit : Nat} (initialised : 34 ≤ limit) :
    ∃ link, Link.init limit = some link ∧ link.received = [] ∧
      link.encoder.encodeTable = new 62 true limit (limit / 34) ∧
      link.decoder.decodeTable = new 62 false limit (limit / 34) := by
  have buckets : limit / 34 ≠ 0 := by omega
  have packer_eq : HPacker.init limit =
      some ⟨new 62 true limit (limit / 34),
        new 62 false limit (limit / 34)⟩ := by
    rw [HPacker.init, if_neg buckets, endIndex_staticTable]
  exact ⟨_, by rw [Link.init, packer_eq]; rfl, rfl, rfl, rfl⟩

/-- Blocks of codable headers arrive as they were sent, with their names in lower case, and after
every one of them the two dynamic tables hold the same entries in the same order: the same headers
but for the case of the names, and equal ones if the names were in lower case. -/
theorem Link.received_eq (maxTableSize : Nat) (initialised : 34 ≤ maxTableSize)
    (indexable : 61 + maxTableSize / 34 < maxHpackInteger) (blocks : List Block)
    (codable : ∀ block ∈ blocks, ∀ field ∈ block, Codable field)
    (few : blocks.flatten.length ≤ 2 ^ 31) :
    ∃ link after, Link.init maxTableSize = some link ∧
      blocks.foldlM Link.send link = some after ∧
      after.received = blocks.map (·.map (·.1.lowered)) ∧
      after.decoder.decodeTable.headerQueue =
        after.encoder.encodeTable.headerQueue.map Header.lowered ∧
      ((∀ block ∈ blocks, ∀ field ∈ block, field.1.lowered = field.1) →
        after.decoder.decodeTable.headerQueue = after.encoder.encodeTable.headerQueue) := by
  obtain ⟨link, init_eq, received_eq, encode_eq, decode_eq⟩ := Link.init_eq initialised
  -- What may enter a table: entries of 34 bytes that are in lower case if all headers are.
  let admits (entry : Header) : Prop := 34 ≤ headerSize entry ∧
    ((∀ block ∈ blocks, ∀ field ∈ block, field.1.lowered = field.1) → entry.lowered = entry)
  have synced : Synced maxTableSize admits link.encoder.encodeTable link.decoder.decodeTable := by
    rw [encode_eq, decode_eq]
    exact synced_new maxTableSize admits
  have times : link.encoder.encodeTable.addTimes + blocks.flatten.length ≤ 2 ^ 31 := by
    rw [encode_eq]
    simpa [new] using few
  obtain ⟨after, run_eq, after_synced, after_received⟩ := Link.foldlM_send_spec indexable
    (fun entry admitted => admitted.1) synced blocks
    (fun block block_mem field field_mem =>
      ⟨codable block block_mem field field_mem, fun policy =>
        ⟨(codable block block_mem field field_mem).large policy,
          fun lower => lower block block_mem field field_mem⟩⟩) times
  refine ⟨link, after, init_eq, run_eq, ?_, after_synced.queue_eq, fun lower => ?_⟩
  · rw [after_received, received_eq, nil_append]
  · rw [after_synced.queue_eq]
    exact (map_congr_left fun entry member =>
      (after_synced.admitted entry member).2 lower).trans (map_id _)

/-- A request line and a repeated header over a table of the default size. -/
theorem Link.received_eq_request : ∃ link after, Link.init 4096 = some link ∧
      List.foldlM Link.send link [[(⟨ofAscii ":method", ofAscii "GET"⟩, {}),
        (⟨ofAscii "X-Id", ofAscii "7"⟩, ⟨.indexHeader, true, true⟩)],
        [(⟨ofAscii "x-id", ofAscii "7"⟩, {})]] = some after ∧
      after.received = [[⟨ofAscii ":method", ofAscii "GET"⟩, ⟨ofAscii "x-id", ofAscii "7"⟩],
        [⟨ofAscii "x-id", ofAscii "7"⟩]] := by
  obtain ⟨link, after, init_eq, run_eq, received, -⟩ := Link.received_eq 4096 (by decide)
    (by decide) [[(⟨ofAscii ":method", ofAscii "GET"⟩, {}),
      (⟨ofAscii "X-Id", ofAscii "7"⟩, ⟨.indexHeader, true, true⟩)],
      [(⟨ofAscii "x-id", ofAscii "7"⟩, {})]] (by decide +kernel) (by decide)
  exact ⟨link, after, init_eq, run_eq, received.trans (by decide +kernel)⟩

/-- Entries of 33 bytes overfill the queue of a table of 66 bytes: the second one is counted and
indexed but not stored, and its name is taken for the first one. -/
theorem Link.received_shortEntries :
    ((Link.init 66).bind fun link => List.foldlM Link.send link [[(⟨ofAscii "a", []⟩, {}),
        (⟨ofAscii "b", []⟩, {}),
        (⟨ofAscii "b", ofAscii "x"⟩, ⟨.notIndexHeader, false, false⟩)]]).map (·.received) =
      some [[⟨ofAscii "a", []⟩, ⟨ofAscii "b", []⟩, ⟨ofAscii "a", ofAscii "x"⟩]] := by
  decide +kernel

end McBrpc.Hpack
