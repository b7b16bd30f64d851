import Mathlib.Algebra.BigOperators.Group.List.Basic
import McBrpc.Brpc.LoadBalancer
import McBrpc.Library.DoublyBuffered
import McBrpc.Library.IndexedList

/-!
# The weighted round robin balancer

`WeightedRoundRobinLoadBalancer` lays the servers on a circle, each with a length equal to its
weight, and walks round it in strides that have no common divisor with the circumference.  A server
is selected when a stride ends in its part.
-/

namespace McBrpc.WeightedRoundRobin

open List IndexedList UInt64

def primeStride : List Nat :=
  [2, 3, 5, 11, 17, 29, 47, 71, 107, 137, 163, 251, 307, 379, 569, 683, 857, 1289, 1543, 1949, 2617,
    2927, 3407, 4391, 6599, 9901, 14867, 22303, 33457, 50207, 75323, 112997, 169501, 254257,
    381389, 572087, 849083, 1273637, 1910471, 2865727, 4298629, 6447943, 9671923, 14507903,
    21761863, 32642861, 48964297, 73446469, 110169743, 165254623, 247881989, 371822987,
    557734537, 836601847, 1254902827, 1882354259, 2823531397, 4235297173, 6352945771,
    9529418671]

/-- The loop of `IsCoprime`, which divides by zero if the second number is zero. -/
def euclid (num1 num2 : Nat) : Option Nat :=
  if _zero : num2 = 0 then none
  else if num1 % num2 = 0 then some num2
  else euclid num2 (num1 % num2)
termination_by num2
decreasing_by exact Nat.mod_lt _ (Nat.pos_of_ne_zero _zero)

def isCoprime (num1 num2 : Nat) : Option Bool :=
  if num1 < num2 then (euclid num2 num1).map (· == 1) else (euclid num1 num2).map (· == 1)

/-- The loop of `GetStride` over the rest of the table, whose end the check refuses. -/
def firstCoprime (weightSum : Nat) : List Nat → Option Nat
  | [] => none
  | prime :: primes =>
    match isCoprime weightSum prime with
    | none => none
    | some true => some prime
    | some false => firstCoprime weightSum primes

/-- The stride for a circumference and a number of servers.  Nothing is returned where the check
fails or a division by zero occurs. -/
def getStride (weightSum num : Nat) : Option Nat :=
  if weightSum = 1 then some 1
  else
    let averageWeight := weightSum / num % 2 ^ 32
    (firstCoprime weightSum (primeStride.dropWhile (· < averageWeight))).map fun prime =>
      if prime > weightSum then prime % weightSum else prime

structure Server where
  id : SocketId
  weight : UInt32
  deriving DecidableEq, Repr

def totalWeight (servers : List Server) : Nat := (servers.map (·.weight.toNat)).sum

/-- The list of servers with the map of their positions, and the sum of their weights as it is
kept in a `uint64_t`. -/
structure Servers where
  servers : IndexedList Server.id
  weightSum : UInt64
  weight_pos : ∀ server ∈ servers.items, 0 < server.weight
  weightSum_eq : weightSum = ofNat (totalWeight servers.items)

namespace Servers

def serverList (bg : Servers) : List Server := bg.servers.items

def serverMap (bg : Servers) : KeyedMap SocketId Nat := bg.servers.index

def new : Servers where
  servers := .empty
  weightSum := 0
  weight_pos _ server_mem := absurd server_mem not_mem_nil
  weightSum_eq := by decide

theorem nodup_ids (bg : Servers) : (bg.serverList.map Server.id).Nodup := bg.servers.nodup_keys

end Servers

@[simp]
theorem totalWeight_nil : totalWeight [] = 0 := rfl

@[simp]
theorem totalWeight_cons (server : Server) (servers : List Server) :
    totalWeight (server :: servers) = server.weight.toNat + totalWeight servers := rfl

@[simp]
theorem totalWeight_append (left right : List Server) :
    totalWeight (left ++ right) = totalWeight left + totalWeight right := by
  rw [totalWeight, map_append, sum_append]
  rfl

theorem totalWeight_perm {left right : List Server} (perm : left.Perm right) :
    totalWeight left = totalWeight right :=
  (perm.map _).sum_eq

section Modification

variable (defaultWeightOfWlb : Int32)

def add (bg : Servers) (id : ServerId) : Bool × Servers :=
  match given : weightOfTag defaultWeightOfWlb id.tag with
  | none => (false, bg)
  | some weight =>
    match fresh : bg.serverMap.find? id.id with
    | some _ => (false, bg)
    | none =>
      (true, {
          servers := bg.servers.push ⟨id.id, weight⟩ fresh
          weightSum := bg.weightSum + weight.toUInt64
          weight_pos := by
            intro server server_mem
            rcases mem_append.mp server_mem with old | new
            · exact bg.weight_pos server old
            · obtain rfl := mem_singleton.mp new
              exact weightOfTag_pos given
          weightSum_eq := by
            rw [bg.weightSum_eq]
            simp [push, ofNat_add] })

def remove (bg : Servers) (id : ServerId) : Bool × Servers :=
  match found : bg.serverMap.find? id.id with
  | none => (false, bg)
  | some index =>
    let removed := bg.serverList.get ⟨index, position_lt found⟩
    (true, {
        servers := bg.servers.removeAt id.id index found
        weightSum := bg.weightSum - removed.weight.toUInt64
        weight_pos := by
          intro server server_mem
          have perm := swapOut_perm
            (getElem?_eq_getElem (position_lt found))
          exact bg.weight_pos server (perm.mem_iff.mpr (mem_cons_of_mem _ server_mem))
        weightSum_eq := by
          have perm := swapOut_perm
            (getElem?_eq_getElem (position_lt found))
          rw [bg.weightSum_eq, totalWeight_perm perm, totalWeight_cons, ofNat_add,
            ofNat_uInt32ToNat]
          exact add_sub_cancel_left _ _ })

def batchAdd (bg : Servers) (ids : List ServerId) : Nat × Servers :=
  batch (add defaultWeightOfWlb) bg ids

def batchRemove (bg : Servers) (ids : List ServerId) : Nat × Servers :=
  batch remove bg ids

variable (dbServers : DoublyBuffered Servers)

def addServer (id : ServerId) : Bool × DoublyBuffered Servers :=
  match dbServers.modify (single (add defaultWeightOfWlb) id) with
  | (count, dbServers) => (count != 0, dbServers)

def removeServer (id : ServerId) : Bool × DoublyBuffered Servers :=
  match dbServers.modify (single remove id) with
  | (count, dbServers) => (count != 0, dbServers)

def addServersInBatch (ids : List ServerId) : Nat × DoublyBuffered Servers :=
  dbServers.modify (batchAdd defaultWeightOfWlb · ids)

def removeServersInBatch (ids : List ServerId) : Nat × DoublyBuffered Servers :=
  dbServers.modify (batchRemove · ids)

end Modification

/-- The thread-local state, with the values of the constructor. -/
structure TLS where
  position : Nat := 0
  stride : Nat := 0
  remainServer : Server := ⟨0, 0⟩
  weightSum : UInt64 := 0
  serversNum : Nat := 0
  deriving DecidableEq, Repr

namespace TLS

/-- A new stride is needed when the sum of the weights or the number of servers has changed. -/
def isNeededCalculateNewStride (tls : TLS) (currWeightSum : UInt64) (currServersNum : Nat) :
    Bool × TLS :=
  if currWeightSum ≠ tls.weightSum ∨ currServersNum ≠ tls.serversNum then
    (true, { tls with weightSum := currWeightSum, serversNum := currServersNum })
  else (false, tls)

def advance (tls : TLS) (serversNum : Nat) : TLS :=
  { tls with position := (tls.position + 1) % serversNum }

end TLS

/-- The loop of `GetServerInNextStride`.  Nothing is returned when the fuel runs out before the
stride is used up, or for a position behind the end of the list. -/
def useUpStride (serverList : List Server) (filter : List SocketId) :
    Nat → Nat → SocketId → TLS → Option (SocketId × TLS)
  | _, 0, finalServer, tls => some (finalServer, tls)
  | 0, _ + 1, _, _ => none
  | fuel + 1, stride + 1, _, tls =>
    match serverList[tls.position]? with
    | none => none
    | some server =>
      if server.id ∈ filter then
        useUpStride serverList filter fuel (stride + 1) server.id
          (tls.advance serverList.length)
      else if server.weight.toNat > stride + 1 then
        some (server.id, { tls with
            remainServer := ⟨server.id, server.weight - UInt32.ofNat (stride + 1)⟩ })
      else
        useUpStride serverList filter fuel (stride + 1 - server.weight.toNat) server.id
          (tls.advance serverList.length)

def invalidSocketId : SocketId := -1

def getServerInNextStride (fuel : Nat) (serverList : List Server) (filter : List SocketId)
    (tls : TLS) : Option (SocketId × TLS) :=
  let remain := tls.remainServer
  if remain.weight > 0 then
    let spent := { tls with remainServer := { remain with weight := 0 } }.advance serverList.length
    if remain.id ∈ filter then
      useUpStride serverList filter fuel tls.stride invalidSocketId spent
    else if remain.weight.toNat > tls.stride then
      some (remain.id, { tls with
          remainServer := { remain with weight := remain.weight - UInt32.ofNat tls.stride } })
    else
      useUpStride serverList filter fuel (tls.stride - remain.weight.toNat) remain.id spent
  else useUpStride serverList filter fuel tls.stride invalidSocketId tls

/-- A call of `SelectServer`: the pool of sockets as it finds it, its parameters and the number it
draws at random. -/
structure SelectCall (Addr : Type*) where
  sockets : Sockets Addr
  input : SelectIn
  random : Nat

variable {Addr : Type*}

/-- The server is not excluded, and it is available. -/
def SelectCall.accepts (call : SelectCall Addr) (id : SocketId) : Bool :=
  !call.input.isExcluded id && call.sockets.available id

/-- The part of `SelectServer` before its loop, which adapts the thread-local state to the
list. -/
def refresh (call : SelectCall Addr) (s : Servers) (tls : TLS) : Option TLS :=
  let num := s.serverList.length
  let strided :=
    match tls.isNeededCalculateNewStride s.weightSum num with
    | (false, tls) => some tls
    | (true, tls) =>
      let position := if tls.stride = 0 then call.random % num else tls.position
      (getStride s.weightSum.toNat num).map fun stride =>
        { tls with position := position, stride := stride }
  strided.map fun tls =>
    let position := tls.position % num
    let remain := tls.remainServer
    -- the remain server may have been removed from the list
    if remain.weight > 0 ∧ s.serverList[position]?.map Server.id ≠ some remain.id then
      { tls with position := position, remainServer := { remain with weight := 0 } }
    else { tls with position := position }

/-- The loop of `SelectServer`.  Nothing is returned where the program does not go on: an endless
walk, a failed check of `GetStride` or a missing key of the map. -/
def selectLoop (fuel : Nat) (call : SelectCall Addr) (s : Servers) (tls : TLS) :
    Nat → List SocketId → UInt64 → TLS → Option (Except Errno SocketId × TLS)
  | 0, _, _, _ => some (.error .ehostdown, tls)
  | remainServers + 1, filter, remainWeight, tlsTemp =>
    match getServerInNextStride fuel s.serverList filter tlsTemp with
    | none => none
    | some (serverId, tlsTemp) =>
      if call.accepts serverId then
        some (.ok serverId, { tls with
            remainServer := tlsTemp.remainServer
            position := tlsTemp.position })
      else if remainServers = 0 then some (.error .ehostdown, tls)
      else
        match (s.serverMap.find? serverId).bind (s.serverList[·]?) with
        | none => none
        | some server =>
          let remainWeight := remainWeight - server.weight.toUInt64
          match getStride remainWeight.toNat remainServers with
          | none => none
          | some stride =>
            selectLoop fuel call s tls remainServers (serverId :: filter) remainWeight
              { tlsTemp with
                stride := stride
                position := tls.position
                remainServer := tls.remainServer }

def selectServer (fuel : Nat) (call : SelectCall Addr) (s : Servers) (tls : TLS) :
    Option (Except Errno SocketId × TLS) :=
  if s.serverList = [] then some (.error .enodata, tls)
  else
    match refresh call s tls with
    | none => none
    | some tls => selectLoop fuel call s tls s.serverList.length [] s.weightSum tls

variable (Addr) (defaultWeightOfWlb : Int32)

/-- The states of a balancer and of the local data of one thread, after any changes of the servers
and any selections of the thread.  A selection sees the pool of sockets as it is at its time. -/
inductive Reachable : DoublyBuffered Servers → TLS → Prop
  | start : Reachable ⟨.new, .new⟩ {}
  | addServer {dbServers tls} (id : ServerId) (earlier : Reachable dbServers tls) :
      Reachable (addServer defaultWeightOfWlb dbServers id).2 tls
  | removeServer {dbServers tls} (id : ServerId) (earlier : Reachable dbServers tls) :
      Reachable (removeServer dbServers id).2 tls
  | addServersInBatch {dbServers tls} (ids : List ServerId) (earlier : Reachable dbServers tls) :
      Reachable (addServersInBatch defaultWeightOfWlb dbServers ids).2 tls
  | removeServersInBatch {dbServers tls} (ids : List ServerId) (earlier : Reachable dbServers tls) :
      Reachable (removeServersInBatch dbServers ids).2 tls
  | selectServer {dbServers tls fuel result after} (call : SelectCall Addr)
      (earlier : Reachable dbServers tls)
      (selected : selectServer fuel call dbServers.foreground tls = some (result, after)) :
      Reachable dbServers after

end McBrpc.WeightedRoundRobin
