import Mathlib.Data.UInt

/-!
# Sockets and the selection of servers

A load balancer picks one of the servers it holds for a call.  A server is named by the id of its
socket, which consists of a slot of the socket pool and a version of that slot, and by a tag.  Of
the ids that share a slot at most one is valid at a time.
-/

namespace McBrpc

open List Option

abbrev SocketId := UInt64

/-- The lower half of an id. -/
def slotOfSocketId (id : SocketId) : UInt32 := id.toUInt32

/-- The upper half of an id. -/
def versionOfSocketId (id : SocketId) : UInt32 := (id >>> 32).toUInt32

/-- What a slot of the pool holds: the version of its `_versioned_ref`, the address of the peer and
the data behind `IsAvailable`. -/
structure Socket (Addr : Type*) where
  version : UInt32
  remoteSide : Addr
  logoffFlag : Bool
  ninflightAppHealthCheck : Int

abbrev Sockets (Addr : Type*) := UInt32 → Option (Socket Addr)

structure ServerId where
  id : SocketId
  tag : String
  deriving DecidableEq, Repr

structure SelectIn where
  beginTimeUs : Int
  changableWeights : Bool
  hasRequestCode : Bool
  requestCode : UInt64
  excluded : Option (List SocketId)

inductive Errno
  | enomem
  | enodata
  | einval
  | ehostdown
  | ereject
  deriving DecidableEq, Repr

def SelectIn.isExcluded (input : SelectIn) (id : SocketId) : Bool :=
  input.excluded.any (id ∈ ·)

/-- `butil::StringToUint`, which accepts decimal digits after an optional sign. -/
def stringToUint (text : String) : Option UInt32 :=
  let digits := if text.toList.head? = some '+' then text.toList.drop 1 else text.toList
  if digits ≠ [] ∧ digits.all Char.isDigit ∧ Nat.ofDigitChars 10 digits 0 < 2 ^ 32 then
    some (UInt32.ofNat (Nat.ofDigitChars 10 digits 0))
  else none

/-- The weight that a weighted balancer gives to a server: the number in its tag or, where that is
no positive number, `FLAGS_default_weight_of_wlb`. -/
def weightOfTag (defaultWeightOfWlb : Int32) (tag : String) : Option UInt32 :=
  match (stringToUint tag).filter (0 < ·) with
  | some weight => some weight
  | none => if 0 < defaultWeightOfWlb then some defaultWeightOfWlb.toUInt32 else none

theorem weightOfTag_pos {defaultWeightOfWlb : Int32} {tag : String} {weight : UInt32}
    (given : weightOfTag defaultWeightOfWlb tag = some weight) : 0 < weight := by
  rw [weightOfTag] at given
  split at given
  · next found =>
    obtain ⟨-, pos⟩ := filter_eq_some_iff.mp found
    simpa [some.inj given] using pos
  · split at given
    · next pos =>
      obtain rfl := some.inj given
      have nonzero : defaultWeightOfWlb.toUInt32 ≠ 0 := by
        intro zero
        have : defaultWeightOfWlb = 0 := by
          rw [← Int32.toInt32_toUInt32 defaultWeightOfWlb, zero]
          rfl
        simp [this] at pos
      exact UInt32.pos_iff_ne_zero.mpr nonzero
    · simp at given

/-- The loop of `BatchAdd` and of `BatchRemove` of the balancers, which counts the servers that are
changed. -/
def batch {T : Type*} (change : T → ServerId → Bool × T) (bg : T) : List ServerId → Nat × T
  | [] => (0, bg)
  | id :: ids =>
    match change bg id with
    | (changed, bg) =>
      match batch change bg ids with
      | (count, bg) => (changed.toNat + count, bg)

theorem batch_forall {T : Type*} {change : T → ServerId → Bool × T} {holds : T → Prop}
    {ids : List ServerId} {bg : T} (start : holds bg)
    (keeps : ∀ bg, ∀ id ∈ ids, holds bg → holds (change bg id).2) :
    holds (batch change bg ids).2 := by
  induction ids generalizing bg with
  | nil => exact start
  | cons id ids ih =>
    exact ih (keeps bg id mem_cons_self start) fun bg other mem =>
      keeps bg other (mem_cons_of_mem _ mem)

/-- A change of one server as a modification, which counts one if it succeeds. -/
def single {T : Type*} (change : T → ServerId → Bool × T) (id : ServerId) (bg : T) : Nat × T :=
  match change bg id with
  | (changed, bg) => (changed.toNat, bg)

variable {Addr : Type*}

def Socket.isAvailable (socket : Socket Addr) : Bool :=
  !socket.logoffFlag && socket.ninflightAppHealthCheck == 0

namespace Sockets

/-- `Socket::Address`, which finds the socket of an id unless it has failed or its slot has been
used again. -/
def address (sockets : Sockets Addr) (id : SocketId) : Option (Socket Addr) :=
  (sockets (slotOfSocketId id)).filter fun socket => socket.version == versionOfSocketId id

/-- The test that selections make: the socket is found and available. -/
def available (sockets : Sockets Addr) (id : SocketId) : Bool :=
  (sockets.address id).any Socket.isAvailable

end Sockets

theorem socketId_eq {left right : SocketId} (slots : slotOfSocketId left = slotOfSocketId right)
    (versions : versionOfSocketId left = versionOfSocketId right) : left = right := by
  apply UInt64.toNat.inj
  have low := congrArg UInt32.toNat slots
  have high := congrArg UInt32.toNat versions
  simp only [slotOfSocketId, versionOfSocketId, UInt64.toNat_toUInt32, UInt64.toNat_shiftRight,
    UInt64.toNat_ofNat, Nat.shiftRight_eq_div_pow] at low high
  have exponent : 32 % 2 ^ 64 % 64 = 32 := rfl
  rw [exponent] at high
  have := left.toNat_lt
  have := right.toNat_lt
  omega

namespace Sockets

variable {sockets : Sockets Addr}

theorem exists_version_of_available {id : SocketId} (available : sockets.available id) :
    ∃ socket, sockets (slotOfSocketId id) = some socket ∧
      socket.version = versionOfSocketId id := by
  cases addressed : sockets.address id with
  | none => simp [Sockets.available, addressed] at available
  | some socket =>
    obtain ⟨here, version⟩ := filter_eq_some_iff.mp addressed
    exact ⟨socket, here, by simpa using version⟩

theorem nodup_slots_of_available {T : Type*} {id : T → SocketId} {servers : List T}
    (nodup : (servers.map id).Nodup) (all : ∀ server ∈ servers, sockets.available (id server)) :
    (servers.map fun server => slotOfSocketId (id server)).Nodup := by
  have apart : ((servers.map id).map slotOfSocketId).Nodup := by
    refine Nodup.map_on ?_ nodup
    intro left left_mem right right_mem slots
    obtain ⟨server, server_mem, rfl⟩ := mem_map.mp left_mem
    obtain ⟨server', server_mem', rfl⟩ := mem_map.mp right_mem
    obtain ⟨socket, at_left, version⟩ := exists_version_of_available (all server server_mem)
    obtain ⟨other, at_right, version'⟩ := exists_version_of_available (all server' server_mem')
    obtain rfl : socket = other := some.inj (at_left.symm.trans (slots ▸ at_right))
    exact socketId_eq slots (version.symm.trans version')
  rwa [List.map_map] at apart

end Sockets

/-- There are `2 ^ 32` slots, so weights of servers on different slots do not overflow. -/
theorem sum_weights_lt {T : Type*} {slot : T → UInt32} (weight : T → UInt32) {servers : List T}
    (slots : (servers.map slot).Nodup) :
    (servers.map fun server => (weight server).toNat).sum < 2 ^ 64 := by
  have few : servers.length ≤ 2 ^ 32 := by
    have apart := slots.map (f := UInt32.toNat) fun _ _ => UInt32.toNat.inj
    have within : (servers.map slot).map UInt32.toNat ⊆ List.range (2 ^ 32) := by
      intro number mem
      obtain ⟨slot, -, rfl⟩ := mem_map.mp mem
      exact mem_range.mpr slot.toNat_lt
    have length_le := (subperm_of_subset apart within).length_le
    rwa [length_map, length_map, length_range] at length_le
  have total_le : (servers.map fun server => (weight server).toNat).sum ≤
      servers.length * (2 ^ 32 - 1) := by
    clear slots few
    induction servers with
    | nil => simp
    | cons server servers ih =>
      have weight_lt := (weight server).toNat_lt
      rw [map_cons, sum_cons, length_cons, Nat.succ_mul]
      omega
  omega

end McBrpc
