import Mathlib.Data.Prod.Lex
import Mathlib.Data.String.Basic
import McBrpc.Brpc.SocketMap
import McBrpc.Library.SortedRange

/-!
# The thread behind a naming service

A naming service passes its whole list of servers to `ResetServers` each time, and the watchers are
told what was removed and what was added.  Additions are filtered for each watcher, removals are
not.
-/

namespace McBrpc

structure ServerNode (Addr : Type*) where
  addr : Addr
  tag : String
  deriving DecidableEq, Repr

def ServerNode.key {Addr : Type*} (node : ServerNode Addr) : Addr ×ₗ String :=
  toLex (node.addr, node.tag)

structure ServerNodeWithId (Addr : Type*) where
  node : ServerNode Addr
  id : SocketId
  deriving DecidableEq, Repr

/-- The order of nodes with ids: by id, then by node. -/
def ServerNodeWithId.key {Addr : Type*} (tagged : ServerNodeWithId Addr) : ℕ ×ₗ (Addr ×ₗ String) :=
  toLex (tagged.id.toNat, tagged.node.key)

/-- `NamingServiceFilter`, or no filter. -/
abbrev NamingServiceFilter (Addr : Type*) := Option (ServerNode Addr → Bool)

def NamingServiceFilter.accept {Addr : Type*} (filter : NamingServiceFilter Addr)
    (node : ServerNode Addr) : Bool :=
  filter.all (· node)

/-- The calls of a `NamingServiceWatcher`. -/
inductive Notice
  | onAddedServers (servers : List ServerId)
  | onRemovedServers (servers : List ServerId)
  deriving DecidableEq, Repr

structure NamingServiceThread (Addr Watcher : Type*) where
  /-- `_last_servers` of its `Actions`. -/
  lastServers : List (ServerNode Addr) := []
  lastSockets : List (ServerNodeWithId Addr) := []
  watchers : KeyedMap Watcher (NamingServiceFilter Addr) := ∅
  /-- The error of the first batch of servers, once there is one; the inner `none` is success. -/
  waitError : Option (Option Errno) := none

/-- A call of `ResetServers`: the list, the ids of the sockets that are made for new keys, what an
id holds that is not assigned, and whether `defer_close_second` is positive. -/
structure ResetCall (Addr : Type*) where
  servers : List (ServerNode Addr)
  created : ServerNode Addr → SocketId
  unassigned : SocketId
  deferClose : Bool

namespace NamingServiceThread

open SortedRange

variable {Addr Watcher : Type*}

def serverNodeWithId2ServerId (src : List (ServerNodeWithId Addr))
    (filter : NamingServiceFilter Addr) : List ServerId :=
  (src.filter fun tagged => filter.accept tagged.node).map fun tagged =>
    ⟨tagged.id, tagged.node.tag⟩

/-- Only the first end of the wait has an effect. -/
def endWait (thread : NamingServiceThread Addr Watcher) (error : Option Errno) :
    NamingServiceThread Addr Watcher :=
  if thread.waitError.isNone then { thread with waitError := some error } else thread

/-- What a watcher is told by `ResetServers`. -/
def notices (removedSockets addedSockets : List (ServerNodeWithId Addr))
    (filter : NamingServiceFilter Addr) : List Notice :=
  (if removedSockets = [] then []
    else [.onRemovedServers (serverNodeWithId2ServerId removedSockets none)]) ++
  if addedSockets = [] then []
    else [.onAddedServers (serverNodeWithId2ServerId addedSockets filter)]

variable [DecidableEq Watcher]

def addWatcher (thread : NamingServiceThread Addr Watcher) (watcher : Watcher)
    (filter : NamingServiceFilter Addr) : Bool × List Notice × NamingServiceThread Addr Watcher :=
  match thread.watchers.find? watcher with
  | some _ => (false, [], thread)
  | none =>
    (true, if thread.lastSockets = [] then []
      else [.onAddedServers (serverNodeWithId2ServerId thread.lastSockets filter)],
      { thread with watchers := AList.insert watcher filter thread.watchers })

/-- The watcher is not told; it can remove the sockets by itself. -/
def removeWatcher (thread : NamingServiceThread Addr Watcher) (watcher : Watcher) :
    Bool × NamingServiceThread Addr Watcher :=
  match thread.watchers.find? watcher with
  | some _ => (true, { thread with watchers := AList.erase watcher thread.watchers })
  | none => (false, thread)

variable [LinearOrder Addr]

/-- The loop of `SocketMapInsert` over the added nodes. -/
def insertAll (created : ServerNode Addr → SocketId) (map : SocketMap (ServerNode Addr)) :
    List (ServerNode Addr) → List (ServerNodeWithId Addr) × SocketMap (ServerNode Addr)
  | [] => ([], map)
  | node :: added =>
    match map.insert node (created node) with
    | (id, map) =>
      match insertAll created map added with
      | (addedSockets, map) => (⟨node, id⟩ :: addedSockets, map)

/-- The part of `ResetServers` that refreshes the sockets. -/
def refresh (lastSockets removedSockets addedSockets : List (ServerNodeWithId Addr)) :
    List (ServerNodeWithId Addr) :=
  let sockets :=
    if removedSockets = [] then lastSockets
    else setDifference ServerNodeWithId.key lastSockets removedSockets
  if addedSockets = [] then sockets
  else sockets.merge addedSockets fun left right => left.key ≤ right.key

/-- `_servers`: sorted and without duplicates. -/
def deduplicated (call : ResetCall Addr) : List (ServerNode Addr) :=
  unique (sort ServerNode.key call.servers)

def added (thread : NamingServiceThread Addr Watcher) (call : ResetCall Addr) :
    List (ServerNode Addr) :=
  setDifference ServerNode.key (deduplicated call) thread.lastServers

def removed (thread : NamingServiceThread Addr Watcher) (call : ResetCall Addr) :
    List (ServerNode Addr) :=
  setDifference ServerNode.key thread.lastServers (deduplicated call)

def resetServers (thread : NamingServiceThread Addr Watcher)
    (map : SocketMap (ServerNode Addr)) (call : ResetCall Addr) :
    List (Watcher × List Notice) × NamingServiceThread Addr Watcher ×
      SocketMap (ServerNode Addr) :=
  match insertAll call.created map (added thread call) with
  | (addedSockets, map) =>
    let addedSockets := sort ServerNodeWithId.key addedSockets
    let removedSockets := sort ServerNodeWithId.key <| (removed thread call).map fun node =>
      ⟨node, (map.find node).getD call.unassigned⟩
    (thread.watchers.entries.map fun entry =>
        (entry.1, notices removedSockets addedSockets entry.2),
      endWait
        { thread with
          lastServers := deduplicated call
          lastSockets := refresh thread.lastSockets removedSockets addedSockets }
        (if call.servers = [] then some .enodata else none),
      (removed thread call).foldl (SocketMap.remove · call.deferClose) map)

end NamingServiceThread

end McBrpc
