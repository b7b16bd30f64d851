import McBrpc.Brpc.LoadBalancer
import McBrpc.Library.DoublyBuffered
import McBrpc.Library.IndexedList

/-!
# The locality-aware balancer

`LocalityAwareLoadBalancer` keeps its servers in an implicit binary tree.  Each node has a weight
and the sum of the weights in its left subtree.  The tree is doubly buffered; the weights, the sums
and the total are shared by the two buffers.
-/

namespace McBrpc.LocalityAware

def weightScale : Int := (2 ^ 63 - 1) / 72000000 / (128 - 1)

def defaultQps : Int := 1

def recvQueueSize : Nat := 128

/-- The flags of the balancer.  The products of a latency with `FLAGS_punish_inflight_ratio` and
with `FLAGS_punish_error_ratio` are functions to an `int64_t`. -/
structure Flags where
  minWeight : Int
  punishInflight : Int → Int
  punishError : Int → Int

structure TimeInfo where
  latencySum : Int
  endTimeUs : Int
  deriving DecidableEq, Repr

/-- The state of a node; its `int64_t` numbers are integers without a bound. -/
structure Weight where
  weight : Int
  baseWeight : Int
  beginTimeSum : Int := 0
  beginTimeCount : Int := 0
  oldDiffSum : Int := 0
  /-- No index is the largest `size_t`. -/
  oldIndex : Option Nat := none
  oldWeight : Int := 0
  avgLatency : Int := 0
  /-- From the top to the bottom. -/
  timeQ : List TimeInfo := []
  deriving DecidableEq, Repr

structure CallInfo where
  serverId : SocketId
  beginTimeUs : Int
  endTimeUs : Int
  errorCode : Int
  maxRetry : Int
  retriedCount : Int
  timeoutMs : Int

namespace Weight

def new (initialWeight : Int) : Weight := { weight := initialWeight, baseWeight := initialWeight }

def disabled (w : Weight) : Bool := w.baseWeight < 0

variable (flags : Flags) (w : Weight)

/-- The change of the weight with the new weight. -/
def resetWeight (index : Nat) (nowUs : Int) : Int × Weight :=
  let newWeight :=
    if 0 < w.beginTimeCount then
      let inflightDelay := nowUs - w.beginTimeSum.tdiv w.beginTimeCount
      let punishLatency := flags.punishInflight w.avgLatency
      if punishLatency ≤ inflightDelay ∧ 0 < w.avgLatency then
        (w.baseWeight * punishLatency).tdiv inflightDelay
      else w.baseWeight
    else w.baseWeight
  let newWeight := if newWeight < flags.minWeight then flags.minWeight else newWeight
  let diff := newWeight - w.weight
  (diff, { w with
      weight := newWeight
      oldDiffSum :=
        if w.oldIndex = some index ∧ diff ≠ 0 then w.oldDiffSum + diff else w.oldDiffSum })

/-- Whether the node is chosen, and the change of the weight. -/
def addInflight (beginTimeUs : Int) (index : Nat) (dice : Int) : Bool × Int × Weight :=
  if w.disabled then (false, 0, w)
  else
    match w.resetWeight flags index beginTimeUs with
    | (diff, w) =>
      -- inflight delay makes the weight too small to choose
      if w.weight < dice then (false, diff, w)
      else
        (true, diff, { w with
            beginTimeSum := w.beginTimeSum + beginTimeUs
            beginTimeCount := w.beginTimeCount + 1 })

def markFailed (index : Nat) (avgWeight : Int) : Int × Weight :=
  if w.baseWeight ≤ avgWeight then (0, w)
  else { w with baseWeight := avgWeight }.resetWeight flags index 0

def elimPush (timeQ : List TimeInfo) (item : TimeInfo) : List TimeInfo :=
  (if timeQ.length = recvQueueSize then timeQ.drop 1 else timeQ) ++ [item]

/-- The part of `Update` that enters a call into the queue. -/
def enqueue (timeQ : List TimeInfo) (ci : CallInfo) (latency : Int) : List TimeInfo :=
  if ci.errorCode = 0 then
    elimPush timeQ ⟨latency + (timeQ.getLast?.elim 0 (·.latencySum)), ci.endTimeUs⟩
  else
    let ndone := if 0 < ci.maxRetry then ci.retriedCount else 1
    let nleft := if 0 < ci.maxRetry then ci.maxRetry - ndone else 0
    let errLatency :=
      (nleft * flags.punishError latency + ndone * ci.timeoutMs * 1000).tdiv (ndone + nleft)
    match timeQ.getLast? with
    | some bottom => timeQ.dropLast ++ [⟨bottom.latencySum + errLatency, ci.endTimeUs⟩]
    | none => [⟨max errLatency (ci.timeoutMs * 1000), ci.endTimeUs⟩]

/-- The quotient of an `int64_t` and a `size_t`. -/
def divSize (value : Int) (size : Nat) : Int := (value % 2 ^ 64 / size).bmod (2 ^ 64)

/-- The part of `Update` that makes a weight of the queue. -/
def recalculate (index : Nat) (endTimeUs scaledQps avgLatency : Int) : Int × Weight :=
  if avgLatency = 0 then (0, { w with avgLatency })
  else { w with avgLatency, baseWeight := scaledQps.tdiv avgLatency }.resetWeight flags index
    endTimeUs

def update (ci : CallInfo) (index : Nat) : Int × Weight :=
  let latency := ci.endTimeUs - ci.beginTimeUs
  if w.disabled then (0, w)
  else
    let w := { w with
      beginTimeSum := w.beginTimeSum - ci.beginTimeUs
      beginTimeCount := w.beginTimeCount - 1 }
    -- time skews, ignore the sample
    if latency ≤ 0 then (0, w)
    else
      let timeQ := enqueue flags w.timeQ ci latency
      let w := { w with timeQ }
      match timeQ.head?, timeQ.getLast? with
      | some top, some bottom =>
        let n := timeQ.length
        if top.endTimeUs < ci.endTimeUs then
          let scaledQps :=
            if n = recvQueueSize ∨ top.endTimeUs + 1000000 ≤ ci.endTimeUs then
              max (((n : Int) - 1) * 1000000 * weightScale / (ci.endTimeUs - top.endTimeUs))
                weightScale
            else defaultQps * weightScale
          w.recalculate flags index ci.endTimeUs scaledQps
            (divSize (bottom.latencySum - top.latencySum) (n - 1))
        else if n = 1 then
          w.recalculate flags index ci.endTimeUs (defaultQps * weightScale) bottom.latencySum
        -- the elapsed time is zero or time skews
        else (0, w)
      | _, _ => (0, w)

def disable (w : Weight) : Int × Weight := (w.weight, { w with baseWeight := -1, weight := 0 })

def markOld (index : Nat) : Int × Weight :=
  (w.weight, { w with oldWeight := w.weight, oldDiffSum := 0, oldIndex := some index })

def clearOld (w : Weight) : (Int × Int) × Weight :=
  ((w.oldWeight, w.oldDiffSum), { w with oldDiffSum := 0, oldIndex := none, oldWeight := 0 })

end Weight

/-- A node of the tree; `left` is a position in `_left_weights`, and `weight` an address. -/
structure ServerInfo where
  serverId : SocketId
  left : Nat
  weight : Nat
  deriving DecidableEq, Repr

/-- The tree with the positions of the servers. -/
abbrev Servers := IndexedList ServerInfo.serverId

namespace Servers

def weightTree (servers : Servers) : List ServerInfo := servers.items

def serverMap (servers : Servers) : KeyedMap SocketId Nat := servers.index

end Servers

structure Shared where
  total : Int := 0
  leftWeights : List Int := []
  /-- The weights behind their addresses. -/
  heap : Nat → Weight := fun _ => .new 0
  /-- The number of addresses that have been given out. -/
  allocated : Nat := 0

namespace Shared

def setWeight (shared : Shared) (address : Nat) (w : Weight) : Shared :=
  { shared with heap := Function.update shared.heap address w }

def popLeft (shared : Shared) : Shared :=
  { shared with leftWeights := shared.leftWeights.dropLast }

end Shared

/-- Add `diff` to the sum of the parent if the node is its left child. -/
def updateParent (tree : List ServerInfo) (diff : Int) (leftWeights : List Int) (index : Nat) :
    List Int :=
  let parentIndex := (index - 1) / 2
  if parentIndex * 2 + 1 = index then
    tree[parentIndex]?.elim leftWeights fun parent => leftWeights.modify parent.left (· + diff)
  else leftWeights

/-- Add `diff` to the sums of all nodes that have the node on their left. -/
def updateParentWeights (tree : List ServerInfo) (diff : Int) (leftWeights : List Int)
    (index : Nat) : List Int :=
  if index = 0 then leftWeights
  else
    updateParentWeights tree diff (updateParent tree diff leftWeights index) ((index - 1) / 2)
termination_by index

/-- A change of a weight arrives at the sums and at the total. -/
def spread (tree : List ServerInfo) (diff : Int) (index : Nat) (shared : Shared) : Shared :=
  if diff = 0 then shared
  else
    { shared with
      leftWeights := updateParentWeights tree diff shared.leftWeights index
      total := shared.total + diff }

def insertNew (bg : Servers) (id : SocketId) (fresh : bg.index.find? id = none)
    (shared : Shared) : Servers × Shared :=
  let index := bg.weightTree.length
  let initialWeight := if bg.weightTree = [] then weightScale else shared.total / index
  let bg : Servers := bg.push ⟨id, shared.leftWeights.length, shared.allocated⟩ fresh
  (bg, spread bg.weightTree initialWeight index { shared with
      leftWeights := shared.leftWeights ++ [0]
      heap := Function.update shared.heap shared.allocated (.new initialWeight)
      allocated := shared.allocated + 1 })

def add (bg fg : Servers) (id : SocketId) (shared : Shared) : Bool × Servers × Shared :=
  match fresh : bg.index.find? id with
  | some _ => (false, bg, shared)
  | none =>
    match found : fg.index.find? id with
    | none => (true, insertNew bg id fresh shared)
    -- the other buffer is modified already, just sync
    | some _ =>
      (true, bg.push (fg.itemAt found) (by rw [IndexedList.key_itemAt found, fresh]), shared)

/-- The last node takes the place of the node at the index, which keeps its sum. -/
def moveLast (bg : Servers) {id : SocketId} {index : Nat}
    (found : bg.index.find? id = some index) : Servers :=
  (bg.removeAt id index found).mapItems
    (fun position info =>
      if position = index then { info with left := (bg.itemAt found).left } else info)
    (fun position info => by split <;> rfl)

/-- The part of `Remove` behind the test whether the id exists. -/
def removeNode (bg : Servers) {id : SocketId} {index : Nat}
    (found : bg.index.find? id = some index) (shared : Shared) : Servers × Shared :=
  let node := bg.itemAt found
  let last := bg.weightTree.getLast?.getD node
  let bg := moveLast bg found
  let size := bg.weightTree.length
  match (shared.heap node.weight).disable with
  | (rmWeight, w) =>
    let shared := shared.setWeight node.weight w
    if index = size then
      -- in the first buffer the weight is removed from the parents
      if rmWeight ≠ 0 then (bg, spread bg.weightTree (-rmWeight) index shared)
      else (bg, shared.popLeft)
    else if rmWeight ≠ 0 then
      -- the foreground still sees the last node and may change its weight
      match (shared.heap last.weight).markOld size with
      | (addWeight, w2) =>
        (bg, spread bg.weightTree (addWeight - rmWeight) index (shared.setWeight last.weight w2))
    else
      match (shared.heap last.weight).clearOld with
      | ((oldWeight, diff), w2) =>
        let leftWeights :=
          if diff = 0 then shared.leftWeights
          else updateParentWeights bg.weightTree diff shared.leftWeights index
        let leftWeights :=
          if -oldWeight - diff = 0 then leftWeights
          else updateParentWeights bg.weightTree (-oldWeight - diff) leftWeights size
        (bg, { shared.setWeight last.weight w2 with
          leftWeights, total := shared.total - oldWeight }.popLeft)

def remove (bg : Servers) (id : SocketId) (shared : Shared) : Bool × Servers × Shared :=
  match found : bg.index.find? id with
  | none => (false, bg, shared)
  | some _ => (true, removeNode bg found shared)

def batchAdd (bg fg : Servers) : List SocketId → Shared → Nat × Servers × Shared
  | [], shared => (0, bg, shared)
  | id :: ids, shared =>
    match add bg fg id shared with
    | (added, bg, shared) =>
      match batchAdd bg fg ids shared with
      | (count, bg, shared) => (added.toNat + count, bg, shared)

/-- The arguments of `Modify` and `ModifyWithForeground`. -/
inductive Modification
  | batchAdd (ids : List SocketId)
  | remove (id : SocketId)
  deriving DecidableEq, Repr

/-- `Add` is a batch of one server. -/
def Modification.fn : Modification → Servers → Servers → Shared → Nat × Servers × Shared
  | .batchAdd ids, bg, fg, shared => LocalityAware.batchAdd bg fg ids shared
  | .remove id, bg, _, shared =>
    match LocalityAware.remove bg id shared with
    | (removed, bg, shared) => (removed.toNat, bg, shared)

/-- `ServerId2SocketIdMapper`, which counts the servers of an id. -/
abbrev Mapper := KeyedMap SocketId Int

/-- Whether the id is new. -/
def Mapper.addServer (nrefMap : Mapper) (server : ServerId) : Bool × Mapper :=
  let nref := (nrefMap.find? server.id).getD 0 + 1
  (nref = 1, AList.insert server.id nref nrefMap)

/-- Whether the id has gone. -/
def Mapper.removeServer (nrefMap : Mapper) (server : ServerId) : Bool × Mapper :=
  match nrefMap.find? server.id with
  | none => (false, nrefMap)
  | some nref =>
    if nref - 1 ≤ 0 then (true, AList.erase server.id nrefMap)
    else (false, AList.insert server.id (nref - 1) nrefMap)

/-- The ids of the servers for which a change of the mapper reports something. -/
def Mapper.batch (change : Mapper → ServerId → Bool × Mapper) (nrefMap : Mapper) :
    List ServerId → List SocketId × Mapper
  | [] => ([], nrefMap)
  | server :: servers =>
    match change nrefMap server with
    | (reported, nrefMap) =>
      match Mapper.batch change nrefMap servers with
      | (ids, nrefMap) => (if reported then server.id :: ids else ids, nrefMap)

inductive Call
  | addServer (server : ServerId)
  | removeServer (server : ServerId)
  | addServersInBatch (servers : List ServerId)
  | removeServersInBatch (servers : List ServerId)
  deriving DecidableEq, Repr

/-- The modifications that a call makes, one after the other. -/
def Call.modifications (nrefMap : Mapper) : Call → List Modification × Mapper
  | .addServer server =>
    match nrefMap.addServer server with
    | (isNew, nrefMap) => (if isNew then [.batchAdd [server.id]] else [], nrefMap)
  | .removeServer server =>
    match nrefMap.removeServer server with
    | (hasGone, nrefMap) => (if hasGone then [.remove server.id] else [], nrefMap)
  | .addServersInBatch servers =>
    match nrefMap.batch Mapper.addServer servers with
    | (ids, nrefMap) => ([.batchAdd ids], nrefMap)
  -- removing in one batch is not used
  | .removeServersInBatch servers =>
    match nrefMap.batch Mapper.removeServer servers with
    | (ids, nrefMap) => (ids.map .remove, nrefMap)

/-- The updates of weights by selections, which have come to a node on their walk, and by
feedbacks. -/
inductive WeightUpdate
  | addInflight (index : Nat) (beginTimeUs dice : Int)
  /-- `total` is the value that the selection has read. -/
  | markFailed (index : Nat) (total : Int)
  | feedback (info : CallInfo)

def changeWeight (servers : Servers) (index : Nat) (change : Weight → Int × Weight)
    (shared : Shared) : Shared :=
  match servers.weightTree[index]? with
  | none => shared
  | some info =>
    match change (shared.heap info.weight) with
    | (diff, w) => spread servers.weightTree diff index (shared.setWeight info.weight w)

def WeightUpdate.apply (flags : Flags) (servers : Servers) (shared : Shared) :
    WeightUpdate → Shared
  | .addInflight index beginTimeUs dice =>
    changeWeight servers index (fun w => (w.addInflight flags beginTimeUs index dice).2) shared
  | .markFailed index total =>
    if 0 < total then
      changeWeight servers index
        (fun w => w.markFailed flags index (total / servers.weightTree.length)) shared
    else shared
  | .feedback info =>
    match servers.serverMap.find? info.serverId with
    | none => shared
    | some index => changeWeight servers index (fun w => w.update flags info index) shared

/-- The balancer; `waiting` are the modifications that calls have still to make, `running` is the
one that has been applied to one buffer. -/
structure Balancer where
  nrefMap : Mapper
  dbServers : DoublyBuffered Servers
  shared : Shared
  waiting : List Modification
  running : Option Modification

def Balancer.new : Balancer where
  nrefMap := ∅
  dbServers := ⟨.empty, .empty⟩
  shared := {}
  waiting := []
  running := none

/-- A reader has the foreground or, until a modification has waited for it, the buffer that was the
foreground before. -/
inductive Reader
  | foreground
  | previous
  deriving DecidableEq, Repr

inductive Event
  | call (call : Call)
  /-- The first application of the next modification. -/
  | publish
  /-- The second application. -/
  | synchronize
  | update (reader : Reader) (update : WeightUpdate)

def Balancer.step (flags : Flags) (lb : Balancer) : Event → Balancer
  | .call call =>
    match call.modifications lb.nrefMap with
    | (modifications, nrefMap) => { lb with nrefMap, waiting := lb.waiting ++ modifications }
  | .publish =>
    match lb.running, lb.waiting with
    | none, modification :: waiting =>
      match lb.dbServers.publish modification.fn lb.shared with
      | (0, dbServers, shared) => { lb with dbServers, shared, waiting }
      | (_ + 1, dbServers, shared) =>
        { lb with dbServers, shared, waiting, running := some modification }
    | _, _ => lb
  | .synchronize =>
    match lb.running with
    | none => lb
    | some modification =>
      match lb.dbServers.synchronize modification.fn lb.shared with
      | (_, dbServers, shared) => { lb with dbServers, shared, running := none }
  | .update .foreground update =>
    { lb with shared := update.apply flags lb.dbServers.foreground lb.shared }
  | .update .previous update =>
    if lb.running.isSome then
      { lb with shared := update.apply flags lb.dbServers.background lb.shared }
    else lb

end McBrpc.LocalityAware
