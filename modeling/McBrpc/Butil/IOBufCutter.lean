import Mathlib.Data.List.Infix

/-!
# IOBufCutter over an IOPortal

An `IOPortal` is a list of references into memory blocks.  The cutter keeps the ends of the front
reference from the moment it loaded it: bytes that are appended to that reference later are out of
its sight, and gone when it pops the reference.  `bytes` is what the cutter sees.
-/

namespace McBrpc

open List

/-- What one call of the reader returned: the bytes by the block they were put in, and whether the
first of these blocks is the one the last reference of the portal ends in. -/
structure ReadResult where
  continues : Bool
  pieces : List (List UInt8)
  nonempty : ∀ piece ∈ pieces, piece ≠ []

def ReadResult.bytes (read : ReadResult) : List UInt8 := read.pieces.flatten

def ReadResult.inBlock (continues : Bool) (bytes : List UInt8) : ReadResult where
  continues := continues
  pieces := if bytes = [] then [] else [bytes]
  nonempty := by
    intro piece member
    split at member
    · cases member
    · rename_i some
      rwa [mem_singleton.mp member]

/-- A reference loaded by the cutter: what lies between `_data` and `_data_end`, and what was
appended to the reference behind `_data_end`. -/
structure LoadedRef where
  data : List UInt8
  hidden : List UInt8

/-- A cutter with the references of its portal. -/
structure IOBufCutter where
  /-- The front reference, once it is loaded. -/
  front : Option LoadedRef
  /-- The references behind the loaded one. -/
  refs : List (List UInt8)
  nonempty : ∀ ref ∈ refs, ref ≠ []

namespace IOBufCutter

def empty : IOBufCutter where
  front := none
  refs := []
  nonempty := by simp

variable (cutter : IOBufCutter)

/-- From `_data` to `_data_end`. -/
def data : List UInt8 := (cutter.front.map LoadedRef.data).getD []

def bytes : List UInt8 := cutter.data ++ cutter.refs.flatten

/-- The cutter with another position inside the loaded reference. -/
def seekTo (data : List UInt8) : IOBufCutter :=
  { cutter with front := cutter.front.map fun loaded => { loaded with data } }

/-- `remaining_bytes`: the loaded reference counts from `_data` to `_data_end` only. -/
def remainingBytes : Nat :=
  match cutter.front with
  | some loaded => loaded.data.length + cutter.refs.flatten.length
  | none => cutter.refs.flatten.length

/-- `load_next_ref`: the front reference is popped with everything in it. -/
def loadNextRef : IOBufCutter :=
  match shape : cutter.refs with
  | [] => empty
  | ref :: rest =>
    { front := some { data := ref, hidden := [] }
      refs := rest
      nonempty := fun other member => cutter.nonempty other (by simp [shape, member]) }

def slowerCopyTo (n : Nat) : List UInt8 × IOBufCutter :=
  let cutter := if cutter.data = [] then cutter.loadNextRef else cutter
  if n ≤ cutter.data.length then (cutter.data.take n, cutter)
  else (cutter.data ++ cutter.refs.flatten.take (n - cutter.data.length), cutter)

/-- `copy_to`: the bytes copied, and the cutter, which may have loaded a reference. -/
def copyTo (n : Nat) : List UInt8 × IOBufCutter :=
  if n ≤ cutter.data.length then (cutter.data.take n, cutter) else cutter.slowerCopyTo n

/-- Popping inside the references behind the loaded one, which are loaded one after another. -/
def popRefs (n : Nat) : (refs : List (List UInt8)) → (∀ ref ∈ refs, ref ≠ []) → IOBufCutter
  | [], _ => empty
  | ref :: rest, nonempty =>
    if n ≤ ref.length then
      { front := some { data := ref.drop n, hidden := [] }
        refs := rest
        nonempty := fun other member => nonempty other (by simp [member]) }
    else popRefs (n - ref.length) rest fun other member => nonempty other (by simp [member])

def popFront (n : Nat) : IOBufCutter :=
  if n ≤ cutter.data.length then cutter.seekTo (cutter.data.drop n)
  else popRefs (n - cutter.data.length) cutter.refs cutter.nonempty

/-- `cut1`: `none` when nothing is left. -/
def cut1 : Option UInt8 × IOBufCutter :=
  let cutter := if cutter.data = [] then cutter.loadNextRef else cutter
  match cutter.data with
  | [] => (none, cutter)
  | byte :: rest => (some byte, cutter.seekTo rest)

/-- `IOBuf::cutn` on references that the cutter has not loaded. -/
def cutRefs (n : Nat) :
    (refs : List (List UInt8)) → (∀ ref ∈ refs, ref ≠ []) → List UInt8 × IOBufCutter
  | [], _ => ([], empty)
  | ref :: rest, nonempty =>
    if partly : n < ref.length then
      (ref.take n, {
          front := none
          refs := ref.drop n :: rest
          nonempty := by
            intro other member
            rcases mem_cons.mp member with rfl | member
            · simpa using partly
            · exact nonempty other (by simp [member]) })
    else
      let (cut, cutter) := cutRefs (n - ref.length) rest fun other member =>
        nonempty other (by simp [member])
      (ref ++ cut, cutter)

/-- `cutn`: an exhausted front reference is popped and the rest is cut from the portal itself. -/
def cutn (n : Nat) : List UInt8 × IOBufCutter :=
  if n = 0 then ([], cutter)
  else if n ≤ cutter.data.length then
    (cutter.data.take n, cutter.seekTo (cutter.data.drop n))
  else
    let (cut, rest) := cutRefs (n - cutter.data.length) cutter.refs cutter.nonempty
    (cutter.data ++ cut, rest)

/-- The references after the bytes of a read went behind the last of them. -/
def extendLast (piece : List UInt8) : List (List UInt8) → List (List UInt8)
  | [] => []
  | [ref] => [ref ++ piece]
  | ref :: rest => ref :: extendLast piece rest

theorem extendLast_nonempty {piece : List UInt8} {refs : List (List UInt8)}
    (nonempty : ∀ ref ∈ refs, ref ≠ []) : ∀ ref ∈ extendLast piece refs, ref ≠ [] := by
  induction refs with
  | nil => simp [extendLast]
  | cons ref rest ih =>
    have inRest := ih fun other member => nonempty other (by simp [member])
    cases rest with
    | nil => simpa [extendLast] using fun empty => absurd empty (nonempty ref (by simp))
    | cons next rest =>
      intro other member
      rcases mem_cons.mp member with rfl | member
      · exact nonempty other (by simp)
      · exact inRest other member

def extend (piece : List UInt8) : IOBufCutter :=
  { cutter with
    refs := extendLast piece cutter.refs
    nonempty := extendLast_nonempty cutter.nonempty }

/-- The loaded reference extended: `_data_end` stays. -/
def hide (piece : List UInt8) : IOBufCutter :=
  { cutter with
    front := cutter.front.map fun loaded => { loaded with hidden := loaded.hidden ++ piece } }

/-- The read continues the block of the reference that the cutter has loaded. -/
def hides (read : ReadResult) : Bool :=
  read.continues && cutter.front.isSome && cutter.refs.isEmpty

def pushRefs (pieces : List (List UInt8)) (nonempty : ∀ piece ∈ pieces, piece ≠ []) : IOBufCutter :=
  { cutter with
    refs := cutter.refs ++ pieces
    nonempty := by
      intro ref member
      rcases mem_append.mp member with member | member
      · exact cutter.nonempty ref member
      · exact nonempty ref member }

/-- `append_from_reader` with what the reader returned: `_push_back_ref` for the piece in each
block, which merges the first piece into the last reference if it continues it. -/
def append (read : ReadResult) : IOBufCutter :=
  match shape : read.pieces with
  | [] => cutter
  | piece :: rest =>
    have restNonempty : ∀ other ∈ rest, other ≠ [] := fun other member =>
      read.nonempty other (by simp [shape, member])
    if cutter.hides read then (cutter.hide piece).pushRefs rest restNonempty
    else if read.continues ∧ cutter.refs ≠ [] then
      (cutter.extend piece).pushRefs rest restNonempty
    else cutter.pushRefs read.pieces read.nonempty

@[simp]
theorem bytes_empty : empty.bytes = [] := rfl

theorem remainingBytes_eq : cutter.remainingBytes = cutter.bytes.length := by
  cases shape : cutter.front with
  | none | some => simp [remainingBytes, bytes, data, shape]

variable {cutter : IOBufCutter}

theorem bytes_seekTo {n : Nat} (within : n ≤ cutter.data.length) :
    (cutter.seekTo (cutter.data.drop n)).bytes = cutter.bytes.drop n := by
  rw [bytes, bytes, drop_append_of_le_length within]
  cases shape : cutter.front with
  | none | some => simp [seekTo, data, shape]

theorem bytes_loadNextRef (exhausted : cutter.data = []) :
    cutter.loadNextRef.bytes = cutter.bytes := by
  rw [loadNextRef]
  split
  · rename_i shape
    rw [bytes_empty, bytes, exhausted, shape]
    rfl
  · rename_i ref rest shape
    simp only [bytes, exhausted, shape]
    simp [data]

theorem bytes_loaded (cutter : IOBufCutter) :
    (if cutter.data = [] then cutter.loadNextRef else cutter).bytes = cutter.bytes := by
  split
  · rename_i exhausted
    exact bytes_loadNextRef exhausted
  · rfl

theorem copyTo_spec (cutter : IOBufCutter) (n : Nat) :
    (cutter.copyTo n).1 = cutter.bytes.take n ∧ (cutter.copyTo n).2.bytes = cutter.bytes := by
  rw [copyTo]
  split
  · rename_i within
    exact ⟨by rw [bytes, take_append_of_le_length within], rfl⟩
  · have seen := bytes_loaded cutter
    simp only [slowerCopyTo]
    generalize (if cutter.data = [] then cutter.loadNextRef else cutter) = loaded at seen ⊢
    split
    · rename_i within
      exact ⟨by rw [← seen, bytes, take_append_of_le_length within], seen⟩
    · rename_i beyond
      refine ⟨?_, seen⟩
      rw [← seen, bytes, take_append, take_of_length_le (Nat.le_of_not_le beyond)]

theorem bytes_popRefs (n : Nat) (refs : List (List UInt8)) (nonempty : ∀ ref ∈ refs, ref ≠ []) :
    (popRefs n refs nonempty).bytes = refs.flatten.drop n := by
  induction refs generalizing n with
  | nil => simp [popRefs]
  | cons ref rest ih =>
    rw [popRefs]
    split
    · rename_i within
      simp [bytes, data, drop_append_of_le_length within]
    · rename_i beyond
      rw [ih, flatten_cons, drop_append, drop_of_length_le (Nat.le_of_not_le beyond), nil_append]

theorem bytes_popFront (cutter : IOBufCutter) (n : Nat) :
    (cutter.popFront n).bytes = cutter.bytes.drop n := by
  rw [popFront]
  split
  · rename_i within
    exact bytes_seekTo within
  · rename_i beyond
    rw [bytes_popRefs, bytes, drop_append, drop_of_length_le (Nat.le_of_not_le beyond), nil_append]

theorem cut1_spec (cutter : IOBufCutter) :
    cutter.cut1.1 = cutter.bytes.head? ∧ cutter.cut1.2.bytes = cutter.bytes.tail := by
  have seen := bytes_loaded cutter
  have next : (if cutter.data = [] then cutter.loadNextRef else cutter).data = [] →
      cutter.bytes = [] := by
    split
    · rename_i exhausted
      rw [loadNextRef]
      split
      · rename_i shape
        simp [bytes, exhausted, shape]
      · rename_i ref rest shape
        intro empty
        exact absurd empty (cutter.nonempty ref (by simp [shape]))
    · rename_i unread
      exact fun empty => absurd empty unread
  simp only [cut1]
  generalize (if cutter.data = [] then cutter.loadNextRef else cutter) = loaded at seen next ⊢
  split
  · rename_i shape
    simp [next shape, seen]
  · rename_i byte rest shape
    have one : loaded.seekTo rest = loaded.seekTo (loaded.data.drop 1) := by simp [shape]
    rw [one, bytes_seekTo (by simp [shape]), seen]
    refine ⟨?_, by simp⟩
    rw [← seen, bytes, shape]
    rfl

theorem cutRefs_spec (n : Nat) (refs : List (List UInt8)) (nonempty : ∀ ref ∈ refs, ref ≠ []) :
    (cutRefs n refs nonempty).1 = refs.flatten.take n ∧
      (cutRefs n refs nonempty).2.bytes = refs.flatten.drop n := by
  induction refs generalizing n with
  | nil => simp [cutRefs]
  | cons ref rest ih =>
    rw [cutRefs]
    split
    · rename_i partly
      have within := Nat.le_of_lt partly
      simp [bytes, data, take_append_of_le_length within, drop_append_of_le_length within]
    · rename_i beyond
      have covered := Nat.le_of_not_lt beyond
      obtain ⟨taken, left⟩ := ih (n - ref.length) fun other member =>
        nonempty other (by simp [member])
      simp only [flatten_cons]
      rw [take_append, take_of_length_le covered, drop_append,
        drop_of_length_le covered, taken, left]
      exact ⟨rfl, rfl⟩

theorem cutn_spec (cutter : IOBufCutter) (n : Nat) :
    (cutter.cutn n).1 = cutter.bytes.take n ∧ (cutter.cutn n).2.bytes = cutter.bytes.drop n := by
  rw [cutn]
  split
  · rename_i zero
    simp [zero]
  · split
    · rename_i within
      exact ⟨by rw [bytes, take_append_of_le_length within], bytes_seekTo within⟩
    · rename_i beyond
      have covered := Nat.le_of_not_le beyond
      obtain ⟨taken, left⟩ := cutRefs_spec (n - cutter.data.length) cutter.refs cutter.nonempty
      simp only [taken, left]
      rw [bytes, take_append, take_of_length_le covered, drop_append, drop_of_length_le covered]
      exact ⟨rfl, rfl⟩

theorem flatten_extendLast {piece : List UInt8} {refs : List (List UInt8)} (some : refs ≠ []) :
    (extendLast piece refs).flatten = refs.flatten ++ piece := by
  induction refs with
  | nil => exact absurd rfl some
  | cons ref rest ih =>
    cases rest with
    | nil => simp [extendLast]
    | cons next rest =>
      have unfolded : extendLast piece (ref :: next :: rest) =
          ref :: extendLast piece (next :: rest) := rfl
      rw [unfolded, flatten_cons, ih (by simp)]
      simp

theorem bytes_pushRefs (cutter : IOBufCutter) (pieces : List (List UInt8))
    (nonempty : ∀ piece ∈ pieces, piece ≠ []) :
    (cutter.pushRefs pieces nonempty).bytes = cutter.bytes ++ pieces.flatten := by
  simp [pushRefs, bytes, data]

theorem bytes_append {read : ReadResult} (seen : cutter.hides read = false) :
    (cutter.append read).bytes = cutter.bytes ++ read.bytes := by
  rw [append]
  split
  · rename_i shape
    simp [ReadResult.bytes, shape]
  · rename_i piece rest shape
    simp only [seen, Bool.false_eq_true, if_false]
    split
    · rename_i extended
      rw [bytes_pushRefs, bytes, bytes, ReadResult.bytes, shape, flatten_cons]
      simp only [extend]
      rw [flatten_extendLast extended.2]
      simp [data]
    · rw [bytes_pushRefs, ReadResult.bytes]

theorem length_bytes_append_le (cutter : IOBufCutter) (read : ReadResult) :
    (cutter.append read).bytes.length ≤ cutter.bytes.length + read.bytes.length := by
  cases hidden : cutter.hides read with
  | false => rw [bytes_append hidden, length_append]
  | true =>
    rw [append]
    split
    · simp
    · rename_i piece rest shape
      have same : (cutter.hide piece).bytes = cutter.bytes := by
        cases front : cutter.front <;> simp [hide, bytes, data, front]
      rw [if_pos hidden, bytes_pushRefs, same, ReadResult.bytes, shape]
      simp only [length_append, flatten_cons]
      omega

end IOBufCutter
end McBrpc
