import McBrpc.Brpc.LoadBalancer
import McBrpc.Library.KeyedMap

/-!
# The map of shared sockets

`SocketMap` gives all users of one key the same socket and counts their references.  A socket
without references is closed, at once or after a while.  Sockets in the map have health checks, so
that a socket which fails is not replaced by another one.
-/

namespace McBrpc

open KeyedMap AList

structure SingleConnection where
  refCount : Int
  id : SocketId
  deriving DecidableEq, Repr

abbrev SocketMap (κ : Type*) := KeyedMap κ SingleConnection

namespace SocketMap

variable {κ : Type*} [DecidableEq κ] (map : SocketMap κ)

/-- `SocketMap::Insert`; `created` is the id of the socket that is made for a new key. -/
def insert (key : κ) (created : SocketId) : SocketId × SocketMap κ :=
  match map.find? key with
  | some sc => (sc.id, AList.insert key { sc with refCount := sc.refCount + 1 } map)
  | none => (created, AList.insert key ⟨1, created⟩ map)

def find (key : κ) : Option SocketId := (map.find? key).map (·.id)

/-- `SocketMap::Remove` without an expected id; a positive `defer_close_second` leaves the closing
of the socket to the removal of orphans. -/
def remove (deferClose : Bool) (key : κ) : SocketMap κ :=
  match map.find? key with
  | none => map
  | some sc =>
    if sc.refCount - 1 = 0 ∧ deferClose = false then erase key map
    else AList.insert key { sc with refCount := sc.refCount - 1 } map

/-- `SocketMap::RemoveInternal` for a key among the orphans. -/
def removeOrphan (key : κ) : SocketMap κ :=
  match map.find? key with
  | none => map
  | some sc => if sc.refCount = 0 then erase key map else map

def refs (key : κ) : Int := (map.find? key).elim 0 (·.refCount)

/-- No two keys share a socket. -/
def Apart : Prop :=
  ∀ first second id, map.find first = some id → map.find second = some id → first = second

variable {map}

theorem find_of_refs {key : κ} (held : map.refs key ≠ 0) : ∃ id, map.find key = some id := by
  cases found : map.find? key with
  | none => simp [refs, found] at held
  | some sc => exact ⟨sc.id, by rw [find, found]; rfl⟩

theorem insert_fst (map : SocketMap κ) (key : κ) (created : SocketId) :
    (map.insert key created).1 = (map.find key).getD created := by
  rw [insert, find]
  cases map.find? key with
  | none | some => rfl

theorem find_insert (map : SocketMap κ) (key other : κ) (made : SocketId) :
    (map.insert key made).2.find other =
      if other = key then some ((map.find key).getD made) else map.find other := by
  rw [insert, find, find, find]
  cases map.find? key with
  | none | some =>
    rw [find?_insert]
    split <;> rfl

theorem refs_insert (map : SocketMap κ) (key other : κ) (made : SocketId) :
    (map.insert key made).2.refs other = map.refs other + if other = key then 1 else 0 := by
  rw [insert, refs, refs]
  cases found : map.find? key with
  | none | some =>
    rw [find?_insert]
    split
    · next same => simp [same, found]
    · simp

theorem refs_remove (deferClose : Bool) (key other : κ) (held : map.refs key ≠ 0) :
    (map.remove deferClose key).refs other = map.refs other - if other = key then 1 else 0 := by
  rw [remove, refs, refs]
  cases found : map.find? key with
  | none => simp [refs, found] at held
  | some sc =>
    dsimp only
    split
    · next last =>
      rw [find?_erase]
      split
      · next same => simp [same, found, last.1]
      · simp
    · rw [find?_insert]
      split
      · next same => simp [same, found]
      · simp

theorem find_of_find_erase {key other : κ} {id : SocketId}
    (after : find (erase key map) other = some id) : map.find other = some id := by
  rw [find, find?_erase] at after
  split at after
  · simp at after
  · exact after

theorem find_of_find_remove {deferClose : Bool} {key other : κ} {id : SocketId}
    (after : (map.remove deferClose key).find other = some id) : map.find other = some id := by
  rw [remove] at after
  cases found : map.find? key with
  | none => rwa [found] at after
  | some sc =>
    simp only [found] at after
    split at after
    · exact find_of_find_erase after
    · rw [find, find?_insert] at after
      split at after
      · next same => simpa [find, same, found] using after
      · exact after

theorem refs_removeOrphan (key other : κ) : (map.removeOrphan key).refs other = map.refs other := by
  rw [removeOrphan, refs, refs]
  cases found : map.find? key with
  | none => rfl
  | some sc =>
    dsimp only
    split
    · next orphan =>
      rw [find?_erase]
      split
      · next same => simp [same, found, orphan]
      · rfl
    · rfl

theorem find_of_find_removeOrphan {key other : κ} {id : SocketId}
    (after : (map.removeOrphan key).find other = some id) : map.find other = some id := by
  rw [removeOrphan] at after
  cases found : map.find? key with
  | none => rwa [found] at after
  | some sc =>
    simp only [found] at after
    split at after
    · exact find_of_find_erase after
    · exact after

theorem Apart.mono {later : SocketMap κ} (apart : map.Apart)
    (fewer : ∀ key id, later.find key = some id → map.find key = some id) : later.Apart :=
  fun first second id at_first at_second =>
    apart first second id (fewer first id at_first) (fewer second id at_second)

end SocketMap

end McBrpc
