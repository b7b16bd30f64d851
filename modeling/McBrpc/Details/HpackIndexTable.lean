import Mathlib.Algebra.Order.Group.Nat
import Mathlib.Data.List.TakeWhile
import McBrpc.Butil.FlatMap
import McBrpc.Details.HpackPrimitives
import McBrpc.Library.LatestStamp

/-!
# The index tables of HPACK

`IndexTable` of `details/hpack.cpp`: a bounded queue of headers with a limit on their total size,
and for the encoder two maps from a header and from a name to the time of its latest addition.
The static table is such a table, filled once.
-/

namespace McBrpc.Hpack

open LatestStamp List Nat

structure Header where
  name : List UInt8
  value : List UInt8
deriving DecidableEq, Repr

def Header.lowered (h : Header) : Header := ⟨tolower h.name, h.value⟩

def headerSize (h : Header) : Nat := h.name.length + h.value.length + 32

/-- A `char` as it is added to a `size_t`. -/
def hashChar (c : UInt8) : UInt64 :=
  if c < 128 then c.toUInt64 else c.toUInt64 + 0xFFFFFFFFFFFFFF00

/-- `DefaultHasher<std::string>` -/
def defaultHasher (s : List UInt8) : UInt64 := s.foldl (fun result c => result * 101 + hashChar c) 0

def caseIgnoredHasher (s : List UInt8) : UInt64 := defaultHasher (tolower s)

/-- What `strcasecmp` sees of a string: nothing behind a NUL, and no case. -/
def cString (s : List UInt8) : List UInt8 := tolower (s.takeWhile (· ≠ 0))

/-- `FlatMap` looks for a name in the bucket of its hash and compares with `CaseIgnoredEqual`,
which is to say, with these three. -/
def nameKey (nbucket : Nat) (name : List UInt8) : Nat × Nat × List UInt8 :=
  (flatmapMod (caseIgnoredHasher name).toNat nbucket, name.length, cString name)

/-- The same for a header under `HeaderHasher` and `HeaderEqualTo`. -/
def headerKey (nbucket : Nat) (h : Header) : Nat × Nat × List UInt8 × List UInt8 :=
  (flatmapMod (caseIgnoredHasher h.name * 101 + defaultHasher h.value).toNat nbucket,
    h.name.length, cString h.name, h.value)

/-- `IndexTable`.  The queue is listed from its top, the oldest entry, to its bottom.  The maps have
twice as many buckets as the queue has places, so they are never rehashed for entries of the
queue. -/
structure IndexTable where
  startIndex : Nat
  needIndexes : Bool
  addTimes : Nat
  maxSize : Nat
  size : Nat
  /-- The capacity of `_header_queue`. -/
  capacity : Nat
  headerQueue : List Header
  headerIndex : KeyedMap (Nat × Nat × List UInt8 × List UInt8) Nat
  nameIndex : KeyedMap (Nat × Nat × List UInt8) Nat

namespace IndexTable

variable (t : IndexTable)

def nbucket : Nat := flatmapRound (2 * t.capacity)

/-- The key under which a header is found; a header without value is not indexed. -/
def headerKey? (h : Header) : Option (Nat × Nat × List UInt8 × List UInt8) :=
  if h.value = [] then none else some (headerKey t.nbucket h)

def nameKey? (h : Header) : Option (Nat × Nat × List UInt8) :=
  some (nameKey t.nbucket h.name)

/-- An empty table, as `Init` leaves it. -/
def new (startIndex : Nat) (needIndexes : Bool) (maxSize capacity : Nat) : IndexTable :=
  ⟨startIndex, needIndexes, 0, maxSize, 0, capacity, [], ∅, ∅⟩

/-- `HeaderAt`; the latest entry has the smallest index. -/
def headerAt (index : Nat) : Option Header :=
  if index < t.startIndex then none else t.headerQueue.reverse[index - t.startIndex]?

/-- The index of the entry that was added at some time: a sum in `uint64_t`, returned as `int`. -/
def indexOf (time : Nat) : Nat :=
  (t.startIndex + (t.addTimes + 2 ^ 64 - time) % 2 ^ 64 - 1) % 2 ^ 32

/-- `GetIndexOfHeader`, which is 0 when there is none. -/
def getIndexOfHeader (h : Header) : Nat :=
  match t.headerIndex.find? (headerKey t.nbucket h) with
  | none => 0
  | some time => t.indexOf time

def getIndexOfName (name : List UInt8) : Nat :=
  match t.nameIndex.find? (nameKey t.nbucket name) with
  | none => 0
  | some time => t.indexOf time

def endIndex : Nat := t.startIndex + t.headerQueue.length

/-- `RemoveHeaderFromIndexes`, which reads through what `seek` returns. -/
def removeHeaderFromIndexes (h : Header) (expectedId : Nat) :
    Option IndexTable := do
  let headerIndex ← forget t.headerIndex (t.headerKey? h) expectedId
  let nameIndex ← forget t.nameIndex (t.nameKey? h) expectedId
  some { t with headerIndex := headerIndex, nameIndex := nameIndex }

/-- `PopHeader`.  There is no result when the queue is empty: its top is read all the same. -/
def popHeader : Option IndexTable :=
  match t.headerQueue with
  | [] => none
  | h :: rest => do
    let t' ← if t.needIndexes then
        t.removeHeaderFromIndexes h (t.addTimes - t.headerQueue.length)
      else
        some t
    some { t' with size := t.size - headerSize h, headerQueue := rest }

def evict (entrySize : Nat) : Nat → IndexTable → Option IndexTable
  | 0, t => some t
  | fuel + 1, t =>
    if t.size ≠ 0 ∧ t.maxSize < t.size + entrySize then
      t.popHeader.bind (evict entrySize fuel)
    else
      some t

/-- `const int id = _add_times++`, stored as `uint64_t`. -/
def storedId (addTimes : Nat) : Nat :=
  if addTimes % 2 ^ 32 < 2 ^ 31 then addTimes % 2 ^ 32 else 2 ^ 64 - 2 ^ 32 + addTimes % 2 ^ 32

/-- The second half of `AddHeader`: `push` does nothing on a full queue, and the `CHECK` before it
only logs. -/
def push (h : Header) : IndexTable :=
  { t with
    size := t.size + headerSize h
    headerQueue := if t.headerQueue.length < t.capacity then t.headerQueue ++ [h]
      else t.headerQueue
    addTimes := t.addTimes + 1
    headerIndex := if t.needIndexes then record t.headerIndex (t.headerKey? h) (storedId t.addTimes)
      else t.headerIndex
    nameIndex := if t.needIndexes then record t.nameIndex (t.nameKey? h) (storedId t.addTimes)
      else t.nameIndex }

def addHeader (h : Header) : Option IndexTable := do
  let t ← evict (headerSize h) (t.headerQueue.length + 1) t
  if t.maxSize < headerSize h then some t else some (t.push h)

def resetMaxSize (newMaxSize : Nat) : Option IndexTable :=
  if newMaxSize < t.maxSize then
    evict 0 (t.headerQueue.length + 1) { t with maxSize := newMaxSize }
  else
    some { t with maxSize := newMaxSize }

end IndexTable

def ofAscii (s : String) : List UInt8 := s.toList.map fun c => UInt8.ofNat c.toNat

/-- `s_static_headers` -/
def staticHeaders : List Header :=
  [(":authority", ""), (":method", "GET"), (":method", "POST"), (":path", "/"),
   (":path", "/index.html"), (":scheme", "http"), (":scheme", "https"), (":status", "200"),
   (":status", "204"), (":status", "206"), (":status", "304"), (":status", "400"),
   (":status", "404"), (":status", "500"), ("accept-charset", ""),
   ("accept-encoding", "gzip, deflate"), ("accept-language", ""), ("accept-ranges", ""),
   ("accept", ""), ("access-control-allow-origin", ""), ("age", ""), ("allow", ""),
   ("authorization", ""), ("cache-control", ""), ("content-disposition", ""),
   ("content-encoding", ""), ("content-language", ""), ("content-length", ""),
   ("content-location", ""), ("content-range", ""), ("content-type", ""), ("cookie", ""),
   ("date", ""), ("etag", ""), ("expect", ""), ("expires", ""), ("from", ""), ("host", ""),
   ("if-match", ""), ("if-modified-since", ""), ("if-none-match", ""), ("if-range", ""),
   ("if-unmodified-since", ""), ("last-modified", ""), ("link", ""), ("location", ""),
   ("max-forwards", ""), ("proxy-authenticate", ""), ("proxy-authorization", ""),
   ("range", ""), ("referer", ""), ("refresh", ""), ("retry-after", ""), ("server", ""),
   ("set-cookie", ""), ("strict-transport-security", ""), ("transfer-encoding", ""),
   ("user-agent", ""), ("vary", ""), ("via", ""),
   ("www-authenticate", "")].map fun (name, value) => ⟨ofAscii name, ofAscii value⟩

/-- `s_static_table`, which gets the headers in reverse order. -/
def staticTable : IndexTable :=
  let empty := IndexTable.new 1 true (2 ^ 32 - 1) staticHeaders.length
  (staticHeaders.reverse.foldlM IndexTable.addHeader empty).getD empty

section Sizes

def totalSize (queue : List Header) : Nat := (queue.map headerSize).sum

@[simp]
theorem totalSize_nil : totalSize [] = 0 := rfl

@[simp]
theorem totalSize_cons (h : Header) (queue : List Header) :
    totalSize (h :: queue) = headerSize h + totalSize queue := by
  simp [totalSize]

@[simp]
theorem totalSize_append (left right : List Header) :
    totalSize (left ++ right) = totalSize left + totalSize right := by
  simp [totalSize]

/-- The entries that stay when the oldest ones make room for `entrySize`. -/
def survivors (maxSize entrySize : Nat) : List Header → List Header
  | [] => []
  | h :: queue =>
    if maxSize < totalSize (h :: queue) + entrySize then survivors maxSize entrySize queue
    else h :: queue

/-- The queue after `AddHeader`, if it has a place for the header. -/
def inserted (maxSize : Nat) (h : Header) (queue : List Header) : List Header :=
  if maxSize < headerSize h then survivors maxSize (headerSize h) queue
  else survivors maxSize (headerSize h) queue ++ [h]

variable {maxSize entrySize : Nat} {queue : List Header}

theorem survivors_of_fits (fits : totalSize queue + entrySize ≤ maxSize)
    : survivors maxSize entrySize queue = queue := by
  cases queue with
  | nil => rfl
  | cons h queue => rw [survivors, if_neg (not_lt.mpr fits)]

theorem mem_of_mem_survivors {h : Header} (mem : h ∈ survivors maxSize entrySize queue)
    : h ∈ queue := by
  induction queue with
  | nil => exact mem
  | cons first queue ih =>
    rw [survivors] at mem
    split at mem
    · exact mem_cons_of_mem _ (ih mem)
    · exact mem

theorem length_survivors_le (maxSize entrySize : Nat) (queue : List Header) :
    (survivors maxSize entrySize queue).length ≤ queue.length := by
  induction queue with
  | nil => exact le_refl _
  | cons first queue ih =>
    rw [survivors]
    split
    · exact le_succ_of_le ih
    · exact le_refl _

theorem totalSize_survivors (queue : List Header) (entry : entrySize ≤ maxSize) :
    totalSize (survivors maxSize entrySize queue) + entrySize ≤ maxSize := by
  induction queue with
  | nil => simpa [survivors] using entry
  | cons first queue ih =>
    rw [survivors]
    split
    · exact ih
    · next fits => exact not_lt.mp fits

theorem inserted_eq (maxSize : Nat) (h : Header) (queue : List Header) :
    inserted maxSize h queue = if maxSize < headerSize h then []
      else survivors maxSize (headerSize h) queue ++ [h] := by
  unfold inserted
  split
  · next tooLarge =>
    induction queue with
    | nil => rfl
    | cons first queue ih => rw [survivors, if_pos (by omega), ih]
  · rfl

theorem mem_inserted {h entry : Header} (mem : entry ∈ inserted maxSize h queue) :
    entry ∈ queue ∨ entry = h := by
  unfold inserted at mem
  split at mem
  · exact .inl (mem_of_mem_survivors mem)
  · rcases mem_append.mp mem with kept | new
    · exact .inl (mem_of_mem_survivors kept)
    · exact .inr (mem_singleton.mp new)

theorem length_mul_le_totalSize {least : Nat} (large : ∀ entry ∈ queue, least ≤ headerSize entry) :
    least * queue.length ≤ totalSize queue := by
  induction queue with
  | nil => simp
  | cons entry queue ih =>
    have first := large entry mem_cons_self
    have rest := ih fun other mem => large other (mem_cons_of_mem _ mem)
    rw [length_cons, totalSize_cons, mul_succ]
    omega

theorem length_survivors_lt {h : Header} (large : ∀ entry ∈ queue, 34 ≤ headerSize entry)
    (h_large : 34 ≤ headerSize h) (fits : headerSize h ≤ maxSize) :
    (survivors maxSize (headerSize h) queue).length < maxSize / 34 := by
  have heavy : 34 * (survivors maxSize (headerSize h) queue).length ≤
      totalSize (survivors maxSize (headerSize h) queue) :=
    length_mul_le_totalSize fun entry mem => large entry (mem_of_mem_survivors mem)
  have total := totalSize_survivors queue fits
  omega

@[simp]
theorem headerSize_lowered (h : Header) : headerSize h.lowered = headerSize h := by
  simp [headerSize, Header.lowered, tolower]

@[simp]
theorem totalSize_map_lowered (queue : List Header) :
    totalSize (queue.map Header.lowered) = totalSize queue := by
  induction queue with
  | nil => rfl
  | cons h queue ih => simp [ih]

theorem survivors_map_lowered (maxSize entrySize : Nat) (queue : List Header) :
    survivors maxSize entrySize (queue.map Header.lowered) =
      (survivors maxSize entrySize queue).map Header.lowered := by
  induction queue with
  | nil => rfl
  | cons h queue ih =>
    have same := totalSize_map_lowered (h :: queue)
    rw [map_cons] at same ⊢
    rw [survivors, survivors, same, ih]
    split <;> rfl

theorem inserted_map_lowered (maxSize : Nat) (h : Header) (queue : List Header) :
    inserted maxSize h.lowered (queue.map Header.lowered) =
      (inserted maxSize h queue).map Header.lowered := by
  unfold inserted
  rw [headerSize_lowered, survivors_map_lowered]
  split
  · rfl
  · rw [map_append]
    rfl

end Sizes

theorem tolower_eq_of_cString_eq {stored name : List UInt8} (noNul : 0 ∉ name)
    (length_eq : stored.length = name.length) (same : cString stored = cString name) :
    tolower stored = tolower name := by
  have name_whole : name.takeWhile (· ≠ 0) = name := by
    rw [takeWhile_eq_self_iff]
    intro c mem
    simpa using fun zero : c = 0 => noNul (zero ▸ mem)
  have stored_whole : stored.takeWhile (· ≠ 0) = stored := by
    apply ( takeWhile_prefix _).eq_of_length
    have lengths := congrArg List.length same
    simp only [cString, tolower, length_map, name_whole] at lengths
    rw [lengths, length_eq]
  rwa [cString, cString, name_whole, stored_whole] at same

theorem lowered_name_eq_of_nameKey_eq {nbucket : Nat} {stored name : List UInt8}
    (noNul : 0 ∉ name) (same : nameKey nbucket stored = nameKey nbucket name) :
    tolower stored = tolower name := by
  simp only [nameKey, Prod.mk.injEq] at same
  exact tolower_eq_of_cString_eq noNul same.2.1 same.2.2

theorem lowered_eq_of_headerKey_eq {nbucket : Nat} {stored h : Header}
    (noNul : 0 ∉ h.name) (same : headerKey nbucket stored = headerKey nbucket h) :
    stored.lowered = h.lowered := by
  simp only [headerKey, Prod.mk.injEq] at same
  rw [Header.lowered, Header.lowered, tolower_eq_of_cString_eq noNul same.2.1 same.2.2.1,
    same.2.2.2]

namespace IndexTable

/-- What no operation on the entries changes. -/
def setup (t : IndexTable) : Nat × Bool × Nat × Nat :=
  (t.startIndex, t.needIndexes, t.maxSize, t.capacity)

/-- The time of the oldest entry of the queue. -/
def base (t : IndexTable) : Nat := t.addTimes - t.headerQueue.length

/-- The size and the maps describe the queue, and the times fit an `int`. -/
structure Lawful (t : IndexTable) : Prop where
  size_eq : t.size = totalSize t.headerQueue
  length_le : t.headerQueue.length ≤ t.addTimes
  addTimes_le : t.addTimes ≤ 2 ^ 31
  headers_indexed : t.needIndexes = true →
    Indexes t.headerIndex t.headerKey? t.base t.headerQueue
  names_indexed : t.needIndexes = true → Indexes t.nameIndex t.nameKey? t.base t.headerQueue

theorem lawful_new (startIndex : Nat) (needIndexes : Bool) (maxSize capacity : Nat) :
    (new startIndex needIndexes maxSize capacity).Lawful :=
  ⟨rfl, zero_le _, zero_le _, fun _ => indexes_empty, fun _ => indexes_empty⟩

variable {t : IndexTable} {h : Header} {rest : List Header}

section Pop

variable (lawful : t.Lawful) (queue : t.headerQueue = h :: rest)
include lawful queue

theorem removeHeaderFromIndexes_spec (needed : t.needIndexes = true) : ∃ headerIndex nameIndex,
      t.removeHeaderFromIndexes h t.base =
        some { t with headerIndex := headerIndex, nameIndex := nameIndex } ∧
      Indexes headerIndex t.headerKey? (t.base + 1) rest ∧
      Indexes nameIndex t.nameKey? (t.base + 1) rest := by
  obtain ⟨headerIndex, header_forget, headers⟩ :=
    (queue ▸ lawful.headers_indexed needed).forget
  obtain ⟨nameIndex, name_forget, names⟩ := (queue ▸ lawful.names_indexed needed).forget
  refine ⟨headerIndex, nameIndex, ?_, headers, names⟩
  simp [removeHeaderFromIndexes, header_forget, name_forget]

theorem popHeader_eq : ∃ headerIndex nameIndex, t.popHeader = some { t with
        headerIndex := headerIndex, nameIndex := nameIndex,
        size := t.size - headerSize h, headerQueue := rest } ∧
      (t.needIndexes = true → Indexes headerIndex t.headerKey? (t.base + 1) rest) ∧
      (t.needIndexes = true → Indexes nameIndex t.nameKey? (t.base + 1) rest) := by
  unfold popHeader
  simp only [queue]
  by_cases needed : t.needIndexes = true
  · obtain ⟨headerIndex, nameIndex, removed, headers, names⟩ :=
      removeHeaderFromIndexes_spec lawful queue needed
    rw [base, queue] at removed
    refine ⟨headerIndex, nameIndex, ?_, fun _ => headers, fun _ => names⟩
    rw [if_pos needed, removed]
    rfl
  · refine ⟨t.headerIndex, t.nameIndex, ?_, fun wrong => absurd wrong needed,
      fun wrong => absurd wrong needed⟩
    rw [if_neg needed]
    rfl

theorem popHeader_spec :
    ∃ t', t.popHeader = some t' ∧ t'.Lawful ∧ t'.headerQueue = rest ∧ t'.setup = t.setup ∧
      t'.addTimes = t.addTimes := by
  obtain ⟨index, nameIndex, pop_eq, headers, names⟩ := popHeader_eq lawful queue
  have length_le := lawful.length_le
  have size_eq := lawful.size_eq
  have base_eq : t.addTimes - rest.length = t.base + 1 := by
    unfold base
    rw [queue, length_cons] at length_le ⊢
    omega
  rw [queue] at length_le size_eq
  rw [← base_eq] at headers names
  refine ⟨_, pop_eq, ⟨?_, le_of_succ_le length_le, lawful.addTimes_le, headers, names⟩,
    rfl, rfl, rfl⟩
  rw [totalSize_cons] at size_eq
  simp only [size_eq]
  omega

end Pop

theorem evict_spec (entrySize fuel : Nat) (lawful : t.Lawful)
    (enough : t.headerQueue.length < fuel) :
    ∃ t', evict entrySize fuel t = some t' ∧ t'.Lawful ∧
      t'.headerQueue = survivors t.maxSize entrySize t.headerQueue ∧ t'.setup = t.setup ∧
      t'.addTimes = t.addTimes := by
  induction fuel generalizing t with
  | zero => omega
  | succ fuel ih =>
    cases queue : t.headerQueue with
    | nil =>
      have size_eq : t.size = 0 := by rw [lawful.size_eq, queue, totalSize_nil]
      exact ⟨t, by simp [evict, size_eq], lawful, by rw [queue, survivors], rfl, rfl⟩
    | cons h rest =>
      have size_eq := lawful.size_eq
      rw [queue] at size_eq
      have pos : t.size ≠ 0 := by
        rw [size_eq, totalSize_cons, headerSize]
        omega
      rw [evict, survivors, ← size_eq]
      by_cases full : t.maxSize < t.size + entrySize
      · obtain ⟨popped, pop_eq, popped_lawful, popped_queue, popped_setup, popped_times⟩ :=
          popHeader_spec lawful queue
        have less : popped.headerQueue.length < fuel := by
          rw [popped_queue]
          rw [queue, length_cons] at enough
          omega
        obtain ⟨t', evict_eq, lawful', queue', setup', times'⟩ := ih popped_lawful less
        have maxSize_eq : popped.maxSize = t.maxSize :=
          congrArg (fun setup => setup.2.2.1) popped_setup
        refine ⟨t', ?_, lawful', ?_, setup'.trans popped_setup, times'.trans popped_times⟩
        · rw [if_pos ⟨pos, full⟩, pop_eq, Option.bind_some, evict_eq]
        · rw [if_pos full, queue', popped_queue, maxSize_eq]
      · refine ⟨t, ?_, lawful, ?_, rfl, rfl⟩
        · rw [if_neg fun both => full both.2]
        · rw [if_neg full, queue]

theorem storedId_of_lt {addTimes : Nat} (small : addTimes < 2 ^ 31) :
    storedId addTimes = addTimes := by
  have kept : addTimes % 2 ^ 32 = addTimes := mod_eq_of_lt (by omega)
  rw [storedId, kept, if_pos small]

theorem lawful_push (lawful : t.Lawful) (h : Header) (times : t.addTimes < 2 ^ 31)
    (room : t.headerQueue.length < t.capacity) :
    (t.push h).Lawful ∧ (t.push h).headerQueue = t.headerQueue ++ [h] := by
  have queue : (t.push h).headerQueue = t.headerQueue ++ [h] := by simp [push, room]
  have length_le := lawful.length_le
  have base_eq : (t.push h).base = t.base := by
    rw [base, base, queue, length_append, length_singleton]
    simp only [push]
    omega
  have stamp_eq : storedId t.addTimes = t.base + t.headerQueue.length := by
    rw [storedId_of_lt times, base]
    omega
  refine ⟨⟨?_, ?_, times, fun needed => ?_, fun needed => ?_⟩, queue⟩
  · rw [queue, totalSize_append, ← lawful.size_eq]
    simp [push]
  · rw [queue, length_append]
    exact succ_le_succ length_le
  · have needed : t.needIndexes = true := needed
    have index_eq : (t.push h).headerIndex =
        record t.headerIndex (t.headerKey? h) (storedId t.addTimes) := if_pos needed
    rw [queue, base_eq, index_eq]
    exact (lawful.headers_indexed needed).record h stamp_eq
  · have needed : t.needIndexes = true := needed
    have index_eq : (t.push h).nameIndex =
        record t.nameIndex (t.nameKey? h) (storedId t.addTimes) := if_pos needed
    rw [queue, base_eq, index_eq]
    exact (lawful.names_indexed needed).record h stamp_eq

theorem addHeader_spec (lawful : t.Lawful) (h : Header) (times : t.addTimes < 2 ^ 31)
    (room : headerSize h ≤ t.maxSize →
      (survivors t.maxSize (headerSize h) t.headerQueue).length < t.capacity) :
    ∃ t', t.addHeader h = some t' ∧ t'.Lawful ∧
      t'.headerQueue = inserted t.maxSize h t.headerQueue ∧ t'.setup = t.setup ∧
      t'.addTimes = t.addTimes + (if t.maxSize < headerSize h then 0 else 1) := by
  obtain ⟨kept, evict_eq, kept_lawful, kept_queue, kept_setup, kept_times⟩ :=
    evict_spec (headerSize h) (t.headerQueue.length + 1) lawful (lt_succ_self _)
  have maxSize_eq : kept.maxSize = t.maxSize := congrArg (fun setup => setup.2.2.1) kept_setup
  have capacity_eq : kept.capacity = t.capacity := congrArg (fun setup => setup.2.2.2) kept_setup
  unfold addHeader inserted
  rw [evict_eq]
  simp only [Option.bind_eq_bind, Option.bind_some, maxSize_eq]
  split
  · exact ⟨kept, rfl, kept_lawful, kept_queue, kept_setup, kept_times⟩
  · next fits =>
    have place : kept.headerQueue.length < kept.capacity := by
      rw [kept_queue, capacity_eq]
      exact room (not_lt.mp fits)
    obtain ⟨push_lawful, push_queue⟩ := lawful_push kept_lawful h (by omega) place
    exact ⟨kept.push h, rfl, push_lawful, by rw [push_queue, kept_queue], kept_setup,
      congrArg succ kept_times⟩

theorem headerAt_indexOf (lawful : t.Lawful) {time : Nat} (base_le : t.base ≤ time)
    (added : time < t.addTimes) (start_pos : 0 < t.startIndex) (start_le : t.startIndex ≤ 2 ^ 31) :
    t.headerAt (t.indexOf time) = t.headerQueue[time - t.base]? ∧
      t.startIndex ≤ t.indexOf time ∧ t.indexOf time < t.endIndex := by
  have length_le := lawful.length_le
  have addTimes_le := lawful.addTimes_le
  unfold base at base_le
  have index_eq : t.indexOf time = t.startIndex + (t.addTimes - time - 1) := by
    unfold indexOf
    omega
  refine ⟨?_, by omega, by rw [index_eq, endIndex]; omega⟩
  rw [headerAt, if_neg (by omega), getElem?_reverse (by omega)]
  congr 1
  unfold base
  omega

theorem exists_headerAt_of_find {κ : Type} [DecidableEq κ] {index : KeyedMap κ Nat}
    {keyOf : Header → Option κ} {key : κ} {time : Nat} (lawful : t.Lawful)
    (indexes : Indexes index keyOf t.base t.headerQueue) (found : index.find? key = some time)
    (start_pos : 0 < t.startIndex) (start_le : t.startIndex ≤ 2 ^ 31) :
    ∃ h, t.headerAt (t.indexOf time) = some h ∧ keyOf h = some key ∧
      t.startIndex ≤ t.indexOf time ∧ t.indexOf time < t.endIndex := by
  rw [indexes key] at found
  obtain ⟨base_le, h, at_time, keyed⟩ := latest_eq_some found
  have inside := (List.getElem?_eq_some_iff.mp at_time).1
  have added : time < t.addTimes := by
    have := lawful.length_le
    unfold base at base_le inside
    omega
  obtain ⟨headerAt_eq, above, below⟩ := headerAt_indexOf lawful base_le added start_pos start_le
  exact ⟨h, headerAt_eq.trans at_time, keyed, above, below⟩

/-- A table in which headers are looked up. -/
structure Searchable (t : IndexTable) : Prop where
  lawful : t.Lawful
  needed : t.needIndexes = true
  start_pos : 0 < t.startIndex
  start_le : t.startIndex ≤ 2 ^ 31

/-- The index is that of an entry with a property. -/
def Finds (t : IndexTable) (index : Nat) (holds : Header → Prop) : Prop :=
  ∃ entry, t.headerAt index = some entry ∧ holds entry ∧
    t.startIndex ≤ index ∧ index < t.endIndex

theorem Searchable.getIndexOfHeader (searchable : t.Searchable) (noNul : 0 ∉ h.name)
    (pos : t.getIndexOfHeader h ≠ 0) :
    t.Finds (t.getIndexOfHeader h) fun entry => entry.lowered = h.lowered := by
  obtain ⟨lawful, needed, start_pos, start_le⟩ := searchable
  unfold IndexTable.getIndexOfHeader at pos ⊢
  split at pos
  · exact absurd rfl pos
  · next time found =>
    obtain ⟨entry, at_index, keyed, bounds⟩ := exists_headerAt_of_find lawful
      (lawful.headers_indexed needed) found start_pos start_le
    unfold headerKey? at keyed
    split at keyed
    · simp at keyed
    · exact ⟨entry, at_index, lowered_eq_of_headerKey_eq noNul (Option.some.inj keyed), bounds⟩

theorem Searchable.getIndexOfName (searchable : t.Searchable) {name : List UInt8}
    (noNul : 0 ∉ name) (pos : t.getIndexOfName name ≠ 0) :
    t.Finds (t.getIndexOfName name) fun entry => tolower entry.name = tolower name := by
  obtain ⟨lawful, needed, start_pos, start_le⟩ := searchable
  unfold IndexTable.getIndexOfName at pos ⊢
  split at pos
  · exact absurd rfl pos
  · next time found =>
    obtain ⟨entry, at_index, keyed, bounds⟩ := exists_headerAt_of_find lawful
      (lawful.names_indexed needed) found start_pos start_le
    exact ⟨entry, at_index, lowered_name_eq_of_nameKey_eq noNul (Option.some.inj keyed), bounds⟩

theorem foldlM_addHeader_spec (lawful : t.Lawful) (headers : List Header)
    (fits : totalSize t.headerQueue + totalSize headers ≤ t.maxSize)
    (room : t.headerQueue.length + headers.length ≤ t.capacity)
    (times : t.addTimes + headers.length ≤ 2 ^ 31) :
    ∃ t', headers.foldlM addHeader t = some t' ∧ t'.Lawful ∧
      t'.headerQueue = t.headerQueue ++ headers ∧ t'.setup = t.setup := by
  induction headers generalizing t with
  | nil => exact ⟨t, rfl, lawful, by simp, rfl⟩
  | cons h headers ih =>
    rw [totalSize_cons] at fits
    rw [length_cons] at room times
    have all : survivors t.maxSize (headerSize h) t.headerQueue = t.headerQueue :=
      survivors_of_fits (by omega)
    obtain ⟨next, add_eq, next_lawful, next_queue, next_setup, next_times⟩ :=
      addHeader_spec lawful h (by omega) fun _ => by rw [all]; omega
    rw [inserted, if_neg (by omega), all] at next_queue
    rw [if_neg (by omega)] at next_times
    have maxSize_eq : next.maxSize = t.maxSize := congrArg (fun setup => setup.2.2.1) next_setup
    have capacity_eq : next.capacity = t.capacity :=
      congrArg (fun setup => setup.2.2.2) next_setup
    obtain ⟨t', fold_eq, lawful', queue', setup'⟩ := ih next_lawful
      (by rw [next_queue, totalSize_append, maxSize_eq, totalSize_cons, totalSize_nil]; omega)
      (by rw [next_queue, length_append, capacity_eq, length_singleton]; omega)
      (by omega)
    refine ⟨t', ?_, lawful', ?_, setup'.trans next_setup⟩
    · rw [foldlM_cons, add_eq]
      exact fold_eq
    · rw [queue', next_queue, append_assoc]
      rfl

theorem mem_headerQueue_of_headerAt {index : Nat} (found : t.headerAt index = some h)
    : h ∈ t.headerQueue := by
  unfold headerAt at found
  split at found
  · simp at found
  · exact mem_reverse.mp (mem_of_getElem? found)

end IndexTable

inductive TableCall where
  | addHeader (h : Header)
  | resetMaxSize (newMaxSize : Nat)

namespace TableCall

def apply (t : IndexTable) : TableCall → Option IndexTable
  | addHeader h => t.addHeader h
  | resetMaxSize newMaxSize => t.resetMaxSize newMaxSize

/-- What the call does to the maximum size and the entries of the dynamic table of RFC 7541. -/
def applyRfc : Nat × List Header → TableCall → Nat × List Header
  | (maxSize, queue), addHeader h =>
    (maxSize, if maxSize < headerSize h then [] else survivors maxSize (headerSize h) queue ++ [h])
  | (_, queue), resetMaxSize newMaxSize => (newMaxSize, survivors newMaxSize 0 queue)

/-- The entry is as large as `Init` supposes, and the new maximum within the one it was given. -/
def Supposed (initial : Nat) : TableCall → Prop
  | addHeader h => 34 ≤ headerSize h
  | resetMaxSize newMaxSize => newMaxSize ≤ initial

end TableCall

namespace IndexTable

/-- A table with the queue that `Init` makes for a maximum size. -/
structure Dimensioned (initial : Nat) (t : IndexTable) : Prop where
  lawful : t.Lawful
  capacity_eq : t.capacity = initial / 34
  maxSize_le : t.maxSize ≤ initial
  total_le : totalSize t.headerQueue ≤ t.maxSize
  large : ∀ entry ∈ t.headerQueue, 34 ≤ headerSize entry

variable {t : IndexTable} {initial : Nat}

theorem Dimensioned.apply (dimensioned : t.Dimensioned initial) {call : TableCall}
    (supposed : call.Supposed initial) (times : t.addTimes < 2 ^ 31) :
    ∃ t', call.apply t = some t' ∧ t'.Dimensioned initial ∧
      (t'.maxSize, t'.headerQueue) = TableCall.applyRfc (t.maxSize, t.headerQueue) call ∧
      t'.addTimes ≤ t.addTimes + 1 := by
  obtain ⟨lawful, capacity_eq, maxSize_le, total_le, large⟩ := dimensioned
  cases call with
  | addHeader h =>
    obtain ⟨t', add_eq, lawful', queue, setup_eq, times_eq⟩ := addHeader_spec lawful h times
      fun fits => by
        have := length_survivors_lt large supposed fits
        omega
    simp only [setup, Prod.mk.injEq] at setup_eq
    obtain ⟨-, -, max_eq, capacity'⟩ := setup_eq
    rw [inserted_eq, ← max_eq] at queue
    refine ⟨t', add_eq, ⟨lawful', capacity'.trans capacity_eq, max_eq ▸ maxSize_le, ?_, ?_⟩, ?_, ?_⟩
    · rw [queue]
      split
      · exact zero_le _
      · next fits => simpa using totalSize_survivors t.headerQueue (not_lt.mp fits)
    · intro entry mem
      rw [queue, ← inserted_eq] at mem
      rcases mem_inserted mem with kept | rfl
      · exact large entry kept
      · exact supposed
    · rw [queue, max_eq, TableCall.applyRfc]
    · rw [times_eq]
      split <;> omega
  | resetMaxSize newMaxSize =>
    have lawful_max : { t with maxSize := newMaxSize }.Lawful :=
      ⟨lawful.1, lawful.2, lawful.3, lawful.4, lawful.5⟩
    rw [TableCall.apply, IndexTable.resetMaxSize]
    split
    · obtain ⟨t', evict_eq, lawful', queue, setup_eq, times_eq⟩ :=
        evict_spec 0 (t.headerQueue.length + 1) lawful_max (lt_succ_self _)
      simp only [setup, Prod.mk.injEq] at setup_eq
      obtain ⟨-, -, max_eq, capacity'⟩ := setup_eq
      refine ⟨t', evict_eq, ⟨lawful', capacity'.trans capacity_eq, max_eq ▸ supposed, ?_, ?_⟩, ?_,
        times_eq ▸ le_succ _⟩
      · rw [queue, max_eq]
        exact totalSize_survivors t.headerQueue (zero_le _)
      · rw [queue]
        exact fun entry mem => large entry (mem_of_mem_survivors mem)
      · rw [queue, max_eq, TableCall.applyRfc]
    · have within : totalSize t.headerQueue ≤ newMaxSize := by omega
      refine ⟨_, rfl, ⟨lawful_max, capacity_eq, supposed, within, large⟩, ?_, le_succ _⟩
      rw [TableCall.applyRfc, survivors_of_fits within]

theorem Dimensioned.run (dimensioned : t.Dimensioned initial) (calls : List TableCall)
    (supposed : ∀ call ∈ calls, call.Supposed initial)
    (times : t.addTimes + calls.length ≤ 2 ^ 31) :
    ∃ t', calls.foldlM TableCall.apply t = some t' ∧ t'.Dimensioned initial ∧
      (t'.maxSize, t'.headerQueue) =
        calls.foldl TableCall.applyRfc (t.maxSize, t.headerQueue) := by
  induction calls generalizing t with
  | nil => exact ⟨t, rfl, dimensioned, rfl⟩
  | cons call calls ih =>
    rw [length_cons] at times
    obtain ⟨next, apply_eq, next_dimensioned, next_eq, next_times⟩ :=
      dimensioned.apply (supposed call mem_cons_self) (by omega)
    obtain ⟨t', run_eq, dimensioned', state_eq⟩ := ih next_dimensioned
      (fun other mem => supposed other (mem_cons_of_mem _ mem)) (by omega)
    refine ⟨t', ?_, dimensioned', ?_⟩
    · rw [foldlM_cons, apply_eq]
      exact run_eq
    · rw [state_eq, next_eq, foldl_cons]

/-- A table does what the dynamic table of RFC 7541 does as long as all entries have 34 bytes and
the maximum size does not grow beyond the first one. -/
theorem run_eq_rfc (startIndex : Nat) (needIndexes : Bool) (maxSize : Nat) (calls : List TableCall)
    (supposed : ∀ call ∈ calls, call.Supposed maxSize) (few : calls.length ≤ 2 ^ 31) :
    ∃ t, calls.foldlM TableCall.apply (new startIndex needIndexes maxSize (maxSize / 34)) = some t ∧
      (t.maxSize, t.headerQueue) = calls.foldl TableCall.applyRfc (maxSize, []) ∧
      t.size = totalSize t.headerQueue ∧ t.size ≤ t.maxSize ∧
      t.headerQueue.length ≤ t.capacity := by
  have start : (new startIndex needIndexes maxSize (maxSize / 34)).Dimensioned maxSize :=
    ⟨lawful_new .., rfl, le_refl _, zero_le _, fun _ member => nomatch member⟩
  obtain ⟨t, run_eq, ⟨lawful, capacity_eq, maxSize_le, total_le, large⟩, state_eq⟩ :=
    start.run calls supposed (by simpa [new] using few)
  refine ⟨t, run_eq, state_eq, lawful.size_eq, lawful.size_eq ▸ total_le, ?_⟩
  have := length_mul_le_totalSize large
  omega

/-- Two entries of 34 and 35 bytes, a smaller maximum that evicts the first and a third entry that
evicts the second. -/
theorem run_eq_rfc_evicts :
    ∃ t, [TableCall.addHeader ⟨[97], [98]⟩, .addHeader ⟨[97, 97], [98]⟩, .resetMaxSize 68,
        .addHeader ⟨[99], [100]⟩].foldlM TableCall.apply (new 62 true 4096 120) = some t ∧
      (t.maxSize, t.headerQueue) = (68, [⟨[99], [100]⟩]) ∧
      t.size = totalSize t.headerQueue ∧ t.size ≤ t.maxSize ∧
      t.headerQueue.length ≤ t.capacity :=
  run_eq_rfc 62 true 4096 [.addHeader ⟨[97], [98]⟩, .addHeader ⟨[97, 97], [98]⟩,
    .resetMaxSize 68, .addHeader ⟨[99], [100]⟩] (by simp [TableCall.Supposed, headerSize])
    (by decide)

/-- Of 121 headers without value, which fit 4096 bytes, the last one has no place. -/
theorem not_run_eq_rfc :
    ((List.replicate 121 (TableCall.addHeader ⟨[97], []⟩)).foldlM TableCall.apply
      (new 62 false 4096 120)).map (fun t => (t.headerQueue.length, t.size)) = some (120, 3993) ∧
    ((List.replicate 121 (TableCall.addHeader ⟨[97], []⟩)).foldl TableCall.applyRfc
      (4096, [])).2.length = 121 := by
  decide +kernel

end IndexTable

theorem staticTable_spec : staticTable.Lawful ∧ staticTable.headerQueue = staticHeaders.reverse ∧
      staticTable.setup = (1, true, 2 ^ 32 - 1, staticHeaders.length) := by
  have sizes : totalSize staticHeaders.reverse ≤ 2 ^ 32 - 1 := by decide +kernel
  have few : staticHeaders.reverse.length ≤ 2 ^ 31 := by decide +kernel
  obtain ⟨t, fold_eq, lawful, queue, setup_eq⟩ :=
    IndexTable.foldlM_addHeader_spec
      (IndexTable.lawful_new 1 true (2 ^ 32 - 1) staticHeaders.length) staticHeaders.reverse
      (by simpa [IndexTable.new] using sizes) (by simp [IndexTable.new])
      (by simpa [IndexTable.new] using few)
  have table_eq : staticTable = t := by
    simp only [staticTable, fold_eq, Option.getD_some]
  rw [table_eq]
  exact ⟨lawful, queue, setup_eq⟩

attribute [irreducible] staticTable

theorem endIndex_staticTable : staticTable.endIndex = 62 := by
  obtain ⟨-, queue, setup_eq⟩ := staticTable_spec
  have start_eq : staticTable.startIndex = 1 := congrArg (fun setup => setup.1) setup_eq
  have count : staticHeaders.length = 61 := by decide +kernel
  rw [IndexTable.endIndex, queue, start_eq, length_reverse, count]

theorem lowered_of_mem_staticHeaders {h : Header} (mem : h ∈ staticHeaders) : h.lowered = h := by
  have all : ∀ h ∈ staticHeaders, h.lowered = h := by decide +kernel
  exact all h mem

end McBrpc.Hpack
