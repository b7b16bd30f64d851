import Mathlib.Algebra.BigOperators.Group.List.Basic
import McBrpc.Brpc.LoadBalancer
import McBrpc.Library.DoublyBuffered
import McBrpc.Library.IndexedList
import McBrpc.Library.LowerBound

/-!
# The weighted randomized balancer

`WeightedRandomizedLoadBalancer` keeps with every server the sum of the weights up to it, throws a
dice and takes the first server whose sum is not below the dice.  A removal corrects the sums by a
difference that is kept in an `int32_t`.
-/

namespace McBrpc.WeightedRandomized

open List IndexedList UInt64 DoublyBuffered

structure Server where
  id : SocketId
  weight : UInt32
  currentWeightSum : UInt64
  deriving DecidableEq, Repr

def totalWeight (servers : List Server) : Nat := (servers.map (·.weight.toNat)).sum

@[simp]
theorem totalWeight_cons (server : Server) (servers : List Server) :
    totalWeight (server :: servers) = server.weight.toNat + totalWeight servers := rfl

theorem totalWeight_perm {left right : List Server} (perm : left.Perm right) :
    totalWeight left = totalWeight right :=
  (perm.map _).sum_eq

theorem toUInt32_ofNat_totalWeight (servers : List Server) :
    (ofNat (totalWeight servers)).toUInt32 = (servers.map Server.weight).sum := by
  rw [toUInt32_ofNat']
  induction servers with
  | nil => rfl
  | cons server servers ih =>
    rw [totalWeight_cons, UInt32.ofNat_add, ih, UInt32.ofNat_toNat, map_cons, sum_cons]

/-- The sums of the servers are those of the weights up to them, modulo `2 ^ 32`. -/
def RunningSums (servers : List Server) : Prop :=
  ∀ index server, servers[index]? = some server →
    server.currentWeightSum.toUInt32 = ((servers.take (index + 1)).map Server.weight).sum

section Correction

variable (index : Nat) (removedSum : UInt64) (weightDiff : Int32)

/-- How a removal changes the server at a position: the one that takes the place of the removed
server gets its sum, and all from there on are corrected by the difference of the weights. -/
def correctSum (position : Nat) (server : Server) : Server :=
  if position = index then
    { server with currentWeightSum := removedSum + weightDiff.toInt64.toUInt64 }
  else if index < position then
    { server with currentWeightSum := server.currentWeightSum + weightDiff.toInt64.toUInt64 }
  else server

@[simp]
theorem correctSum_id (place : Nat) (server : Server) :
    (correctSum index removedSum weightDiff place server).id = server.id := by
  rw [correctSum]
  split
  · rfl
  · split <;> rfl

@[simp]
theorem correctSum_weight (place : Nat) (server : Server) :
    (correctSum index removedSum weightDiff place server).weight = server.weight := by
  rw [correctSum]
  split
  · rfl
  · split <;> rfl

theorem map_weight_correctSum {α : Type*} (weigh : UInt32 → α) (servers : List Server) :
    (servers.mapIdx (correctSum index removedSum weightDiff)).map (weigh ·.weight) =
      servers.map (weigh ·.weight) := by
  refine ext_getElem? fun place => ?_
  simp only [getElem?_map, getElem?_mapIdx, Option.map_map, Function.comp_def, correctSum_weight]

theorem totalWeight_correctSum (servers : List Server) :
    totalWeight (servers.mapIdx (correctSum index removedSum weightDiff)) =
      totalWeight servers :=
  congrArg List.sum (map_weight_correctSum index removedSum weightDiff UInt32.toNat servers)

end Correction

theorem toUInt32_add_extended (sum : UInt64) (difference : UInt32) :
    (sum + difference.toInt32.toInt64.toUInt64).toUInt32 = sum.toUInt32 + difference := by
  have extended : difference.toInt32.toInt64.toUInt64.toUInt32 = difference := by
    apply UInt32.toBitVec_inj.mp
    change (difference.toBitVec.signExtend 64).setWidth 32 = difference.toBitVec
    refine BitVec.eq_of_getElem_eq fun place place_lt => ?_
    rw [BitVec.getElem_setWidth, BitVec.getLsbD_eq_getElem (by omega), BitVec.getElem_signExtend]
    exact dif_pos place_lt
  rw [toUInt32_add, extended]

section Sums

variable {G : Type} [AddCommGroup G] {read : UInt64 → G} {weigh : UInt32 → G}
  {servers : List Server}

/-- The sums of the servers are those of the weights up to them, read in a group. -/
def SumsIn (read : UInt64 → G) (weigh : UInt32 → G) (servers : List Server) : Prop :=
  ∀ index server, servers[index]? = some server →
    read server.currentWeightSum = ((servers.take (index + 1)).map (weigh ·.weight)).sum

theorem SumsIn.push (sums : SumsIn read weigh servers) {new : Server}
    (new_sum : read new.currentWeightSum = (servers.map (weigh ·.weight)).sum + weigh new.weight) :
    SumsIn read weigh (servers ++ [new]) := by
  intro index server here
  rcases Nat.lt_trichotomy index servers.length with old | rfl | beyond
  · rw [getElem?_append_left old] at here
    rw [take_append_of_le_length old]
    exact sums index server here
  · obtain rfl : new = server := by simpa using here
    rw [take_of_length_le (by simp), map_append, sum_append, new_sum]
    simp
  · rw [getElem?_eq_none (by simp; omega)] at here
    simp at here

theorem SumsIn.remove (sums : SumsIn read weigh servers) {index : Nat} {removed back : Server}
    (here : servers[index]? = some removed) (last : servers.getLast? = some back)
    {weightDiff : Int32} (extended : ∀ sum, read (sum + weightDiff.toInt64.toUInt64) =
      read sum + (weigh back.weight - weigh removed.weight)) :
    SumsIn read weigh ((swapOut servers index).mapIdx
      (correctSum index removed.currentWeightSum weightDiff)) := by
  obtain ⟨inside, removed_eq⟩ := List.getElem?_eq_some_iff.mp here
  intro place server placed
  rw [getElem?_mapIdx, Option.map_eq_some_iff] at placed
  obtain ⟨old, at_place, rfl⟩ := placed
  rw [getElem?_swapOut inside] at at_place
  obtain ⟨before_end, at_place⟩ : place + 1 < servers.length ∧
      (if place = index then servers.getLast? else servers[place]?) = some old := by
    split at at_place
    · next before_end => exact ⟨before_end, at_place⟩
    · simp at at_place
  -- the weights up to the place are those from before with the removed one exchanged
  have weights_eq : ((((swapOut servers index).mapIdx
      (correctSum index removed.currentWeightSum weightDiff)).take (place + 1)).map
        (weigh ·.weight)).sum =
      ((servers.take (place + 1)).map (weigh ·.weight)).sum +
        if index < place + 1 then weigh back.weight - weigh removed.weight else 0 := by
    have last_weight : (servers.map (weigh ·.weight)).getLast? = some (weigh back.weight) := by
      rw [getLast?_map, last, Option.map_some]
    rw [map_take, map_weight_correctSum, map_swapOut,
      take_swapOut last_weight index (by simpa using before_end), sum_set',
      map_take]
    congr 1
    split
    · next within =>
      rw [if_pos (by simp at within; omega), getElem_take, getElem_map, removed_eq, neg_add_eq_sub]
    · next outside => rw [if_neg (by simp at outside; omega)]
  rw [weights_eq, correctSum]
  rcases Nat.lt_trichotomy place index with before | rfl | behind
  · rw [if_neg before.ne, if_neg (by omega), if_neg (by omega), add_zero]
    rw [if_neg before.ne] at at_place
    exact sums place old at_place
  · rw [if_pos rfl, if_pos (by omega), extended, sums place removed here]
  · rw [if_neg behind.ne', if_pos behind, if_pos (by omega), extended]
    rw [if_neg behind.ne'] at at_place
    rw [sums place old at_place]

end Sums

/-- The list of servers with the map of their positions, and the sum of the weights as it is kept
in a `uint64_t`. -/
structure Servers where
  servers : IndexedList Server.id
  weightSum : UInt64
  weight_pos : ∀ server ∈ servers.items, 0 < server.weight
  weightSum_eq : weightSum = ofNat (totalWeight servers.items)
  runningSums : RunningSums servers.items

namespace Servers

def serverList (bg : Servers) : List Server := bg.servers.items

def serverMap (bg : Servers) : KeyedMap SocketId Nat := bg.servers.index

def new : Servers where
  servers := .empty
  weightSum := 0
  weight_pos _ server_mem := absurd server_mem not_mem_nil
  weightSum_eq := rfl
  runningSums index server here := by simp [empty] at here

theorem nodup_ids (bg : Servers) : (bg.serverList.map Server.id).Nodup := bg.servers.nodup_keys

end Servers

section Modification

variable (defaultWeightOfWlb : Int32)

def add (bg : Servers) (id : ServerId) : Bool × Servers :=
  match given : weightOfTag defaultWeightOfWlb id.tag with
  | none => (false, bg)
  | some weight =>
    match fresh : bg.serverMap.find? id.id with
    | some _ => (false, bg)
    | none =>
      let currentWeightSum := bg.weightSum + weight.toUInt64
      (true, {
          servers := bg.servers.push ⟨id.id, weight, currentWeightSum⟩ fresh
          weightSum := currentWeightSum
          weight_pos := by
            intro server server_mem
            rcases mem_append.mp server_mem with old | new
            · exact bg.weight_pos server old
            · obtain rfl := mem_singleton.mp new
              exact weightOfTag_pos given
          weightSum_eq := by
            simp [currentWeightSum, bg.weightSum_eq, push, ofNat_add, totalWeight]
          runningSums := @SumsIn.push _ _ toUInt32 (·) _ bg.runningSums _ (by
            rw [toUInt32_add, bg.weightSum_eq, toUInt32_ofNat_totalWeight,
              UInt32.toUInt32_toUInt64]) })

def remove (bg : Servers) (id : ServerId) : Bool × Servers :=
  match found : bg.serverMap.find? id.id with
  | none => (false, bg)
  | some index =>
    have inside := position_lt found
    have nonempty := ne_nil_of_length_pos (Nat.zero_lt_of_lt inside)
    have here := getElem?_eq_getElem inside
    let removed := bg.serverList.get ⟨index, inside⟩
    let back := bg.serverList.getLast nonempty
    let weightDiff := (back.weight - removed.weight).toInt32
    (true,
      { servers := (bg.servers.removeAt id.id index found).mapItems
          (correctSum index removed.currentWeightSum weightDiff) (fun _ _ => correctSum_id ..)
        weightSum := bg.weightSum - removed.weight.toUInt64
        weight_pos := by
          intro server server_mem
          have weight_mem := mem_map_of_mem (f := (·.weight)) server_mem
          rw [mapItems, map_weight_correctSum _ _ _ (·)] at weight_mem
          obtain ⟨old, old_mem, same⟩ := mem_map.mp weight_mem
          have listed := (swapOut_perm here).mem_iff.mpr
            (mem_cons_of_mem _ old_mem)
          exact same ▸ bg.weight_pos old listed
        weightSum_eq := by
          rw [mapItems, totalWeight_correctSum, bg.weightSum_eq,
            totalWeight_perm (swapOut_perm here), totalWeight_cons,
            ofNat_add, ofNat_uInt32ToNat]
          exact add_sub_cancel_left _ _
        runningSums := @SumsIn.remove _ _ toUInt32 (·) _ bg.runningSums _ _ _ here
          (getLast?_eq_some_getLast nonempty) _ fun sum => toUInt32_add_extended sum _ })

def batchAdd (bg : Servers) (ids : List ServerId) : Nat × Servers :=
  batch (add defaultWeightOfWlb) bg ids

def batchRemove (bg : Servers) (ids : List ServerId) : Nat × Servers :=
  batch remove bg ids

variable (dbServers : DoublyBuffered Servers)

def addServer (id : ServerId) : Bool × DoublyBuffered Servers :=
  match dbServers.modify (single (add defaultWeightOfWlb) id) with
  | (count, dbServers) => (count != 0, dbServers)

def removeServer (id : ServerId) : Bool × DoublyBuffered Servers :=
  match dbServers.modify (single remove id) with
  | (count, dbServers) => (count != 0, dbServers)

def addServersInBatch (ids : List ServerId) : Nat × DoublyBuffered Servers :=
  dbServers.modify (batchAdd defaultWeightOfWlb · ids)

def removeServersInBatch (ids : List ServerId) : Nat × DoublyBuffered Servers :=
  dbServers.modify (batchRemove · ids)

end Modification

/-- A call of `SelectServer`: the pool of sockets as it finds it, its parameters and the numbers it
draws at random. -/
structure SelectCall (Addr : Type*) where
  sockets : Sockets Addr
  input : SelectIn
  random : Nat → Nat

def fastRandLessThan (range random : Nat) : Nat := if range = 0 then 0 else random % range

/-- `server_compare` with the dice, at the positions that `std::lower_bound` looks at. -/
def serverCompare (s : Servers) (dice : Nat) (position : Nat) : Bool :=
  s.serverList[position]?.any (·.currentWeightSum < ofNat dice)

def pickPosition (s : Servers) (dice : Nat) : Nat :=
  lowerBound (serverCompare s dice) s.serverList.length

variable {Addr : Type*}

/-- The loop of `SelectServer` from its draw with a number on.  Nothing is returned where it reads
behind the end of the list. -/
def selectLoop (call : SelectCall Addr) (s : Servers) (draw : Nat) :
    Nat → Option (Except Errno SocketId)
  | 0 => some (.error .ehostdown)
  | remaining + 1 =>
    let dice := fastRandLessThan s.weightSum.toNat (call.random draw)
    match s.serverList[pickPosition s dice]? with
    | none => none
    | some server =>
      -- always take the last chance
      if (remaining = 0 ∨ call.input.isExcluded server.id = false) ∧
          call.sockets.available server.id then
        some (.ok server.id)
      else selectLoop call s (draw + 1) remaining

def selectServer (call : SelectCall Addr) (s : Servers) : Option (Except Errno SocketId) :=
  if s.serverList = [] then some (.error .enodata)
  else selectLoop call s 0 s.serverList.length

section Sums

variable (defaultWeightOfWlb : Int32)

/-- The weight of the server fits an `int32_t`. -/
def IsLight (id : ServerId) : Bool :=
  (weightOfTag defaultWeightOfWlb id.tag).all (·.toNat < 2 ^ 31)

/-- The states of a balancer to which no heavier servers were added. -/
inductive Reachable : DoublyBuffered Servers → Prop
  | new : Reachable ⟨.new, .new⟩
  | addServer {dbServers : DoublyBuffered Servers} {id : ServerId} (reachable : Reachable dbServers)
    (light : IsLight defaultWeightOfWlb id) :
    Reachable (addServer defaultWeightOfWlb dbServers id).2
  | removeServer {dbServers : DoublyBuffered Servers} {id : ServerId}
    (reachable : Reachable dbServers) : Reachable (removeServer dbServers id).2
  | addServersInBatch {dbServers : DoublyBuffered Servers} {ids : List ServerId}
    (reachable : Reachable dbServers) (light : ∀ id ∈ ids, IsLight defaultWeightOfWlb id) :
    Reachable (addServersInBatch defaultWeightOfWlb dbServers ids).2
  | removeServersInBatch {dbServers : DoublyBuffered Servers} {ids : List ServerId}
    (reachable : Reachable dbServers) : Reachable (removeServersInBatch dbServers ids).2

/-- The sums are those of the weights as an `uint64_t` holds them, and the map is the inverse of the
list. -/
structure Servers.Summed (bg : Servers) : Prop where
  currentWeightSum : ∀ index server, bg.serverList[index]? = some server →
    server.currentWeightSum = ofNat (totalWeight (bg.serverList.take (index + 1)))
  weightSum : bg.weightSum = ofNat (totalWeight bg.serverList)
  inverse : ∀ id index, bg.serverMap.find? id = some index ↔
    (bg.serverList.map Server.id)[index]? = some id

/-- The differences of the weights fit an `int32_t`, and the sums are not off. -/
structure Servers.Light (bg : Servers) : Prop where
  light : ∀ server ∈ bg.serverList, server.weight.toNat < 2 ^ 31
  sums : SumsIn (·) UInt32.toUInt64 bg.serverList

theorem ofNat_totalWeight (servers : List Server) :
    ofNat (totalWeight servers) = (servers.map (·.weight.toUInt64)).sum := by
  induction servers with
  | nil => rfl
  | cons server servers ih =>
    rw [totalWeight_cons, ofNat_add, ih, ofNat_uInt32ToNat, map_cons, sum_cons]

variable {bg : Servers}

theorem Servers.Light.toSummed (light : bg.Light) : bg.Summed where
  currentWeightSum index server here :=
    (light.sums index server here).trans (ofNat_totalWeight _).symm
  weightSum := bg.weightSum_eq
  inverse := bg.servers.index_iff

theorem extended_sub {back removed : UInt32} (back_light : back.toNat < 2 ^ 31)
    (removed_light : removed.toNat < 2 ^ 31) :
    (back - removed).toInt32.toInt64.toUInt64 = back.toUInt64 - removed.toUInt64 := by
  apply UInt64.toNat_inj.mp
  change ((back - removed).toBitVec.signExtend 64).toNat = _
  rw [BitVec.toNat_signExtend, UInt64.toNat_sub]
  simp only [UInt32.toBitVec_sub, BitVec.msb_eq_decide, BitVec.toNat_sub, BitVec.toNat_setWidth,
    UInt32.toNat_toBitVec, UInt32.toNat_toUInt64, decide_eq_true_eq]
  split <;> omega

variable {defaultWeightOfWlb}

theorem Servers.Light.add (light : bg.Light) {id : ServerId}
    (id_light : IsLight defaultWeightOfWlb id) : (add defaultWeightOfWlb bg id).2.Light := by
  unfold WeightedRandomized.add
  split
  · exact light
  · next weight given =>
    split
    · exact light
    · refine ⟨fun server mem => ?_, light.sums.push ?_⟩
      · rcases mem_append.mp mem with old | new
        · exact light.light server old
        · obtain rfl := mem_singleton.mp new
          simpa [IsLight, given] using id_light
      · rw [bg.weightSum_eq, ofNat_totalWeight]
        rfl

theorem Servers.Light.remove (light : bg.Light) (id : ServerId) : (remove bg id).2.Light := by
  unfold WeightedRandomized.remove
  split
  · exact light
  · next index found =>
    have inside := position_lt found
    have here := getElem?_eq_getElem inside
    have nonempty := ne_nil_of_length_pos (Nat.zero_lt_of_lt inside)
    refine ⟨fun server mem => ?_, ?_⟩
    · have weight_mem : server.weight ∈ ((swapOut bg.serverList index).mapIdx
          (correctSum index _ _)).map (·.weight) := mem_map_of_mem mem
      rw [map_weight_correctSum _ _ _ (·)] at weight_mem
      obtain ⟨old, old_mem, same⟩ := mem_map.mp weight_mem
      have listed := (swapOut_perm here).mem_iff.mpr (mem_cons_of_mem _ old_mem)
      exact same ▸ light.light old listed
    · refine light.sums.remove here (getLast?_eq_some_getLast nonempty) fun sum => ?_
      exact congrArg (sum + ·) (extended_sub (light.light _ (getLast_mem nonempty))
        (light.light _ (getElem_mem inside)))

/-- As long as all weights are below `2 ^ 31`, the sums are those of the weights. -/
theorem Reachable.summed {dbServers : DoublyBuffered Servers}
    (reachable : Reachable defaultWeightOfWlb dbServers) :
    dbServers.foreground.Summed ∧ dbServers.background.Summed := by
  suffices both : dbServers.foreground.Light ∧ dbServers.background.Light from
    ⟨both.1.toSummed, both.2.toSummed⟩
  induction reachable with
  | new =>
    have light_new : Servers.new.Light := ⟨fun _ member => absurd member not_mem_nil,
      fun _ _ here => absurd here (by simp [Servers.serverList, Servers.new, empty])⟩
    exact ⟨light_new, light_new⟩
  | addServer _ light both =>
    exact modify_forall (fun bg kept => kept.add light) both
  | removeServer _ both => exact modify_forall (fun bg kept => kept.remove _) both
  | addServersInBatch _ light both =>
    exact modify_forall (fun bg kept => batch_forall kept
      fun bg id member kept => kept.add (light id member)) both
  | removeServersInBatch _ both =>
    exact modify_forall (fun bg kept => batch_forall kept
      fun bg id _ kept => kept.remove id) both

/-- The second of four servers is removed: the last one takes its place, and the sums from there on
change by the difference of their weights. -/
theorem summed_removed :
    (removeServer (addServersInBatch 0 ⟨.new, .new⟩
      [⟨1, "7"⟩, ⟨2, "9"⟩, ⟨3, "4"⟩, ⟨4, "30"⟩]).2 ⟨2, ""⟩).2.foreground.Summed :=
  (@Reachable.removeServer 0 _ _
    (@Reachable.addServersInBatch 0 _ _ .new (by decide +kernel))).summed.1

/-- The difference of the weights `2 ^ 32 - 1` and 1 is taken for -2, so that the sum is
`2 ^ 64 - 1` and not `2 ^ 32 - 1`. -/
theorem serverList_heavy :
    (removeServer (addServersInBatch 0 ⟨.new, .new⟩ [⟨1, "1"⟩, ⟨2, "4294967295"⟩]).2
      ⟨1, ""⟩).2.foreground.serverList = [⟨2, 4294967295, 18446744073709551615⟩] := by
  decide +kernel

end Sums

end McBrpc.WeightedRandomized
