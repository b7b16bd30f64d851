import McBrpc.Details.NamingServiceThread
import McBrpc.Library.Execution

/-!
# What the watchers of a naming service know

A watcher that adds what it is told and takes away what it is told knows the ids of the last list
that pass its filter.  `RemoveWatcher` does not tell the watcher anything, so that a watcher which
is added again has to have dropped the ids of its first time by itself.
-/

namespace McBrpc

open SortedRange NamingServiceThread Function List ServerNodeWithId SocketMap Notice Execution

variable {Addr Watcher : Type*}

def Notice.apply (known : Finset ServerId) : Notice → Finset ServerId
  | .onAddedServers servers => known ∪ servers.toFinset
  | .onRemovedServers servers => known \ servers.toFinset

theorem foldl_notices (removed addedSockets : List (ServerNodeWithId Addr))
    (filter : NamingServiceFilter Addr) (known : Finset ServerId) :
    (notices removed addedSockets filter).foldl apply known =
      (known \ (serverNodeWithId2ServerId removed none).toFinset) ∪
        (serverNodeWithId2ServerId addedSockets filter).toFinset := by
  cases removed with
  | nil =>
    cases addedSockets with
    | nil => simp [notices, serverNodeWithId2ServerId]
    | cons => simp [notices, serverNodeWithId2ServerId, apply]
  | cons =>
    cases addedSockets with
    | nil => simp [notices, serverNodeWithId2ServerId, apply]
    | cons => simp [notices, apply]

theorem mem_serverNodeWithId2ServerId {src : List (ServerNodeWithId Addr)}
    {filter : NamingServiceFilter Addr} {server : ServerId} :
    server ∈ serverNodeWithId2ServerId src filter ↔
      ∃ tagged ∈ src, filter.accept tagged.node ∧ ⟨tagged.id, tagged.node.tag⟩ = server := by
  simp [serverNodeWithId2ServerId, and_assoc]

section Watchers

variable [DecidableEq Watcher]

/-- The calls of watchers, one after the other. -/
def tell (accumulated : Watcher → Finset ServerId) (told : List (Watcher × List Notice)) :
    Watcher → Finset ServerId :=
  told.foldl (fun accumulated call =>
    Function.update accumulated call.1 (call.2.foldl apply (accumulated call.1)))
    accumulated

theorem tell_of_not_mem {accumulated : Watcher → Finset ServerId}
    {told : List (Watcher × List Notice)} {watcher : Watcher}
    (missing : watcher ∉ told.map Prod.fst) :
    tell accumulated told watcher = accumulated watcher := by
  induction told generalizing accumulated with
  | nil => rfl
  | cons call told ih =>
    rw [map_cons, mem_cons, not_or] at missing
    rw [tell, foldl_cons, ← tell, ih missing.2, update_of_ne missing.1]

theorem tell_of_mem {accumulated : Watcher → Finset ServerId}
    {told : List (Watcher × List Notice)} (nodup : (told.map Prod.fst).Nodup)
    {watcher : Watcher} {calls : List Notice} (mem : (watcher, calls) ∈ told) :
    tell accumulated told watcher = calls.foldl apply (accumulated watcher) := by
  induction told generalizing accumulated with
  | nil => simp at mem
  | cons call told ih =>
    obtain ⟨fresh, rest⟩ := nodup_cons.mp nodup
    rw [tell, foldl_cons, ← tell]
    rcases mem_cons.mp mem with rfl | later
    · rw [tell_of_not_mem fresh, update_self]
    · have other : watcher ≠ call.1 := by
        rintro rfl
        exact fresh (mem_map.mpr ⟨_, later, rfl⟩)
      rw [ih rest later, update_of_ne other]

end Watchers

section Reset

variable [LinearOrder Addr] {thread : NamingServiceThread Addr Watcher}
  {map : SocketMap (ServerNode Addr)} {call : ResetCall Addr}

omit [LinearOrder Addr] in
theorem ServerNode.eq_of_key {left right : ServerNode Addr} (same : left.key = right.key) :
    left = right := by
  cases left
  cases right
  obtain ⟨rfl, rfl⟩ := Prod.mk.inj (toLex.injective same)
  rfl

omit [LinearOrder Addr] in
theorem ServerNodeWithId.eq_of_key {left right : ServerNodeWithId Addr}
    (same : left.key = right.key) : left = right := by
  cases left
  cases right
  obtain ⟨ids, nodes⟩ := Prod.mk.inj (toLex.injective same)
  obtain rfl := UInt64.toNat.inj ids
  obtain rfl := ServerNode.eq_of_key nodes
  rfl

variable {node : ServerNode Addr} {nodes : List (ServerNode Addr)}

theorem mem_deduplicated : node ∈ deduplicated call ↔ node ∈ call.servers := by
  rw [deduplicated, mem_unique, (sort_perm _ _).mem_iff]

theorem deduplicated_sorted : Sorted ServerNode.key (deduplicated call) :=
  unique_sorted (sort_sorted _ _)

theorem nodup_deduplicated : (deduplicated call).Nodup :=
  nodup_unique (sort_sorted _ _) fun _ _ _ _ same => ServerNode.eq_of_key same

/-- The last list is kept sorted and without duplicates. -/
structure ListedOnce (thread : NamingServiceThread Addr Watcher) : Prop where
  sorted : Sorted ServerNode.key thread.lastServers
  nodup : thread.lastServers.Nodup

theorem mem_added (listed : ListedOnce thread) :
    node ∈ added thread call ↔ node ∈ call.servers ∧ node ∉ thread.lastServers := by
  rw [added, mem_setDifference deduplicated_sorted listed.sorted nodup_deduplicated
    fun _ _ _ _ same => ServerNode.eq_of_key same, mem_deduplicated]

theorem mem_removed (listed : ListedOnce thread) :
    node ∈ removed thread call ↔ node ∈ thread.lastServers ∧ node ∉ call.servers := by
  rw [removed, mem_setDifference listed.sorted deduplicated_sorted listed.nodup
    fun _ _ _ _ same => ServerNode.eq_of_key same, mem_deduplicated]

theorem nodup_added (thread : NamingServiceThread Addr Watcher) (call : ResetCall Addr) :
    (added thread call).Nodup :=
  setDifference_sublist.nodup nodup_deduplicated

theorem nodup_removed (listed : ListedOnce thread) : (removed thread call).Nodup :=
  setDifference_sublist.nodup listed.nodup

theorem insertAll_cons (made : ServerNode Addr → SocketId) (map : SocketMap (ServerNode Addr))
    (node : ServerNode Addr) (nodes : List (ServerNode Addr)) :
    insertAll made map (node :: nodes) =
      (⟨node, (map.insert node (made node)).1⟩ ::
          (insertAll made (map.insert node (made node)).2 nodes).1,
        (insertAll made (map.insert node (made node)).2 nodes).2) := rfl

theorem insertAll_eq (made : ServerNode Addr → SocketId) (map : SocketMap (ServerNode Addr))
    (nodup : nodes.Nodup) :
    (insertAll made map nodes).1 =
        nodes.map (fun node => ⟨node, (map.find node).getD (made node)⟩) ∧
      ∀ other,
        (insertAll made map nodes).2.find other =
          (if other ∈ nodes then some ((map.find other).getD (made other)) else map.find other) ∧
        (insertAll made map nodes).2.refs other =
          map.refs other + if other ∈ nodes then 1 else 0 := by
  induction nodes generalizing map with
  | nil => simp [insertAll]
  | cons node nodes ih =>
    obtain ⟨fresh, rest⟩ := nodup_cons.mp nodup
    obtain ⟨sockets_eq, after⟩ := ih (map.insert node (made node)).2 rest
    refine ⟨?_, fun other => ?_⟩
    · rw [insertAll_cons, sockets_eq, map_cons, insert_fst]
      refine congrArg _ (map_congr_left fun later mem => ?_)
      rw [find_insert, if_neg (by rintro rfl; exact fresh mem)]
    · obtain ⟨find_eq, refs_eq⟩ := after other
      simp only [insertAll_cons, find_eq, refs_eq, find_insert, refs_insert, mem_cons]
      by_cases here : other = node
      · subst here
        simp [fresh]
      · simp [here]

theorem removeAll_refs {deferClose : Bool} (nodup : nodes.Nodup)
    (held : ∀ node ∈ nodes, map.refs node ≠ 0) (other : ServerNode Addr) :
    (nodes.foldl (remove · deferClose) map).refs other =
      map.refs other - if other ∈ nodes then 1 else 0 := by
  induction nodes generalizing map with
  | nil => simp
  | cons node nodes ih =>
    obtain ⟨fresh, rest⟩ := nodup_cons.mp nodup
    have refs_eq := fun other =>
      refs_remove deferClose node other (held node mem_cons_self)
    rw [foldl_cons, ih rest, refs_eq]
    · by_cases here : other = node
      · subst here
        simp [fresh]
      · simp [here]
    · intro later mem
      rw [refs_eq, if_neg (by rintro rfl; exact fresh mem), Int.sub_zero]
      exact held later (mem_cons_of_mem _ mem)

theorem find_of_find_removeAll {deferClose : Bool} {other : ServerNode Addr} {id : SocketId}
    (after : (nodes.foldl (remove · deferClose) map).find other = some id) :
    map.find other = some id := by
  induction nodes generalizing map with
  | nil => exact after
  | cons node nodes ih => exact find_of_find_remove (ih after)

theorem refresh_perm (sockets removedSockets addedSockets : List (ServerNodeWithId Addr)) :
    (refresh sockets removedSockets addedSockets).Perm
      (setDifference key sockets removedSockets ++ addedSockets) := by
  have difference_eq :
      (if removedSockets = [] then sockets else setDifference key sockets removedSockets) =
      setDifference key sockets removedSockets := by
    split
    · next none_removed =>
      rw [none_removed]
      cases sockets <;> simp [setDifference]
    · rfl
  rw [refresh, difference_eq]
  split
  · next none_added => rw [none_added, append_nil]
  · exact merge_perm_append _

theorem refresh_sorted {sockets removed addedSockets : List (ServerNodeWithId Addr)}
    (last_sorted : Sorted key sockets)
    (added_sorted : Sorted key addedSockets) :
    Sorted key (refresh sockets removed addedSockets) := by
  have kept_sorted : Sorted key
      (if removed = [] then sockets
        else setDifference key sockets removed) := by
    split
    · exact last_sorted
    · exact last_sorted.sublist setDifference_sublist
  rw [refresh]
  split
  · exact kept_sorted
  · refine List.Pairwise.imp of_decide_eq_true (pairwise_merge ?_ ?_ _ _
      (kept_sorted.imp decide_eq_true) (added_sorted.imp decide_eq_true))
    · intro first second third
      simpa using le_trans
    · intro first second
      simpa using le_total first.key second.key

end Reset

/-- A thread with its watchers and the users of the socket map. -/
structure NamingSystem (Addr Watcher : Type*) where
  thread : NamingServiceThread Addr Watcher
  socketMap : SocketMap (ServerNode Addr)
  /-- The references of other users of the socket map. -/
  shares : ServerNode Addr → Nat
  /-- The last list that was passed to `ResetServers`. -/
  lastList : List (ServerNode Addr)
  /-- What each watcher has added less what it has taken away. -/
  accumulated : Watcher → Finset ServerId

inductive NamingEvent (Addr Watcher : Type*)
  | resetServers (call : ResetCall Addr)
  | addWatcher (watcher : Watcher) (filter : NamingServiceFilter Addr)
  | removeWatcher (watcher : Watcher)
  /-- A watcher drops the ids it knows by itself. -/
  | drop (watcher : Watcher)
  /-- Another user of the socket map takes a reference. -/
  | share (node : ServerNode Addr) (created : SocketId)
  | unshare (node : ServerNode Addr) (deferClose : Bool)
  | removeOrphan (node : ServerNode Addr)

namespace NamingSystem

variable [LinearOrder Addr] [DecidableEq Watcher]

def start : NamingSystem Addr Watcher where
  thread := {}
  socketMap := ∅
  shares := fun _ => 0
  lastList := []
  accumulated := fun _ => ∅

def step (s : NamingSystem Addr Watcher) : NamingEvent Addr Watcher → NamingSystem Addr Watcher
  | .resetServers call =>
    match s.thread.resetServers s.socketMap call with
    | (told, thread, socketMap) =>
      { s with
        thread, socketMap
        lastList := call.servers
        accumulated := tell s.accumulated told }
  | .addWatcher watcher filter =>
    match s.thread.addWatcher watcher filter with
    | (_, notices, thread) =>
      { s with thread, accumulated := tell s.accumulated [(watcher, notices)] }
  | .removeWatcher watcher => { s with thread := (s.thread.removeWatcher watcher).2 }
  | .drop watcher => { s with accumulated := Function.update s.accumulated watcher ∅ }
  | .share node created =>
    { s with
      socketMap := (s.socketMap.insert node created).2
      shares := Function.update s.shares node (s.shares node + 1) }
  | .unshare node deferClose =>
    { s with
      socketMap := s.socketMap.remove deferClose node
      shares := Function.update s.shares node (s.shares node - 1) }
  | .removeOrphan node => { s with socketMap := s.socketMap.removeOrphan node }

/-- The ids of the last list, without duplicates, that pass a filter. -/
def passing (s : NamingSystem Addr Watcher) (filter : NamingServiceFilter Addr) : Finset ServerId :=
  ((s.lastList.dedup.filter filter.accept).filterMap fun node =>
    (s.socketMap.find node).map fun id => ⟨id, node.tag⟩).toFinset

/-- The sockets that are made for the nodes of a call differ from each other and from the sockets
of the map. -/
def FreshIds (map : SocketMap (ServerNode Addr)) (call : ResetCall Addr) : Prop :=
  ∀ node ∈ call.servers,
    (∀ other, map.find other ≠ some (call.created node)) ∧
      ∀ other ∈ call.servers, call.created node = call.created other → node = other

/-- The socket map has one id for each node in use, users give back what they have taken, and a
watcher that is added knows nothing but ids of the last list that pass its filter. -/
def Admissible (s : NamingSystem Addr Watcher) : NamingEvent Addr Watcher → Prop
  | .resetServers call => FreshIds s.socketMap call
  | .addWatcher watcher filter =>
    s.thread.watchers.find? watcher = none → s.accumulated watcher ⊆ s.passing filter
  | .removeWatcher _ => True
  | .drop watcher => s.thread.watchers.find? watcher = none
  | .share node created =>
    s.socketMap.find node = none → ∀ other, s.socketMap.find other ≠ some created
  | .unshare node _ => 0 < s.shares node
  | .removeOrphan _ => True

/-- The invariant behind the views of the watchers: the thread has a reference for each listed
node, and its list of sockets is the list of nodes with their ids. -/
structure Consistent (s : NamingSystem Addr Watcher) : Prop where
  listed : ListedOnce s.thread
  mem_lastServers : ∀ node, node ∈ s.thread.lastServers ↔ node ∈ s.lastList
  sorted : Sorted key s.thread.lastSockets
  nodup : s.thread.lastSockets.Nodup
  mem_lastSockets : ∀ tagged, tagged ∈ s.thread.lastSockets ↔
    tagged.node ∈ s.lastList ∧ s.socketMap.find tagged.node = some tagged.id
  refs_eq : ∀ node, s.socketMap.refs node = s.shares node + if node ∈ s.lastList then 1 else 0
  apart : s.socketMap.Apart
  view : ∀ watcher filter, s.thread.watchers.find? watcher = some filter →
    s.accumulated watcher = s.passing filter

variable {s : NamingSystem Addr Watcher}

/-- The socket map with the sockets of the added nodes. -/
def insertedMap (s : NamingSystem Addr Watcher) (call : ResetCall Addr) :
    SocketMap (ServerNode Addr) :=
  (insertAll call.created s.socketMap (added s.thread call)).2

def addedSockets (s : NamingSystem Addr Watcher) (call : ResetCall Addr) :
    List (ServerNodeWithId Addr) :=
  sort key (insertAll call.created s.socketMap (added s.thread call)).1

def removedSockets (s : NamingSystem Addr Watcher) (call : ResetCall Addr) :
    List (ServerNodeWithId Addr) :=
  sort key <| (removed s.thread call).map fun node =>
    ⟨node, ((s.insertedMap call).find node).getD call.unassigned⟩

omit [DecidableEq Watcher] in
theorem mem_passing {filter : NamingServiceFilter Addr} {server : ServerId} :
    server ∈ s.passing filter ↔
      ∃ node ∈ s.lastList, filter.accept node ∧
        ∃ id, s.socketMap.find node = some id ∧ ⟨id, node.tag⟩ = server := by
  simp [passing, and_assoc]

namespace Consistent

theorem passing_eq (agrees : Consistent s) (filter : NamingServiceFilter Addr) :
    s.passing filter = (serverNodeWithId2ServerId s.thread.lastSockets filter).toFinset := by
  ext server
  rw [mem_passing, mem_toFinset, mem_serverNodeWithId2ServerId]
  constructor
  · rintro ⟨node, mem, taken, id, found, rfl⟩
    exact ⟨⟨node, id⟩, (agrees.mem_lastSockets ⟨node, id⟩).mpr ⟨mem, found⟩, taken, rfl⟩
  · rintro ⟨tagged, tagged_mem, taken, rfl⟩
    obtain ⟨mem, found⟩ := (agrees.mem_lastSockets tagged).mp tagged_mem
    exact ⟨tagged.node, mem, taken, tagged.id, found, rfl⟩

variable {node : ServerNode Addr}

section

variable (agrees : Consistent s)
include agrees

theorem exists_id (mem : node ∈ s.lastList) : ∃ id, s.socketMap.find node = some id := by
  refine find_of_refs ?_
  rw [agrees.refs_eq, if_pos mem]
  omega

theorem of_map {map : SocketMap (ServerNode Addr)} {shares : ServerNode Addr → Nat}
    (refs_eq : ∀ node, map.refs node = shares node + if node ∈ s.lastList then 1 else 0)
    (same : ∀ node ∈ s.lastList, map.find node = s.socketMap.find node) (apart : map.Apart) :
    Consistent { s with socketMap := map, shares } where
  listed := agrees.listed
  mem_lastServers := agrees.mem_lastServers
  sorted := agrees.sorted
  nodup := agrees.nodup
  mem_lastSockets := by
    intro tagged
    rw [agrees.mem_lastSockets]
    refine and_congr_right fun mem => ?_
    rw [same _ mem]
  refs_eq := refs_eq
  apart := apart
  view := by
    intro watcher filter present
    refine (agrees.view watcher filter present).trans (Finset.ext fun server => ?_)
    rw [mem_passing, mem_passing]
    refine exists_congr fun node => and_congr_right fun mem => ?_
    rw [same node mem]

theorem of_fewer {map : SocketMap (ServerNode Addr)} {shares : ServerNode Addr → Nat}
    (refs_eq : ∀ node, map.refs node = shares node + if node ∈ s.lastList then 1 else 0)
    (fewer : ∀ node id, map.find node = some id → s.socketMap.find node = some id) :
    Consistent { s with socketMap := map, shares } := by
  refine agrees.of_map refs_eq ?_ (agrees.apart.mono fewer)
  intro node mem
  obtain ⟨id, found⟩ : ∃ id, map.find node = some id := by
    refine find_of_refs ?_
    rw [refs_eq, if_pos mem]
    omega
  rw [found, fewer node id found]

theorem share {made : SocketId}
    (fresh : s.socketMap.find node = none → ∀ other, s.socketMap.find other ≠ some made) :
    Consistent (s.step (.share node made)) := by
  have find_eq := fun other => find_insert s.socketMap node other made
  refine agrees.of_map ?_ ?_ ?_
  · intro other
    rw [refs_insert, agrees.refs_eq]
    by_cases here : other = node
    · subst here
      rw [if_pos rfl, update_self]
      omega
    · rw [if_neg here, update_of_ne here]
      omega
  · intro other mem
    rw [find_eq]
    split
    · next same =>
      obtain ⟨id, found⟩ := agrees.exists_id (same ▸ mem)
      rw [same, found]
      rfl
    · rfl
  · cases found : s.socketMap.find node with
    | some id =>
      refine agrees.apart.mono fun other other_id at_other => ?_
      rw [find_eq, found] at at_other
      split at at_other
      · next same => rw [same, found, ← at_other]; rfl
      · exact at_other
    | none =>
      intro first second id at_first at_second
      rw [find_eq, found] at at_first at_second
      split at at_first
      · next is_first =>
        split at at_second
        · next is_second => rw [is_first, is_second]
        · obtain rfl : made = id := Option.some.inj at_first
          exact absurd at_second (fresh found second)
      · split at at_second
        · obtain rfl : made = id := Option.some.inj at_second
          exact absurd at_first (fresh found first)
        · exact agrees.apart first second id at_first at_second

theorem unshare (deferClose : Bool) (shared : 0 < s.shares node)
    : Consistent (s.step (.unshare node deferClose)) := by
  have held : s.socketMap.refs node ≠ 0 := by
    rw [agrees.refs_eq]
    split <;> omega
  refine agrees.of_fewer ?_ fun other id => find_of_find_remove
  intro other
  rw [refs_remove deferClose node other held, agrees.refs_eq]
  by_cases here : other = node
  · subst here
    rw [if_pos rfl, update_self]
    omega
  · rw [if_neg here, update_of_ne here]
    omega

theorem removeOrphan (node : ServerNode Addr) : Consistent (s.step (.removeOrphan node)) := by
  refine agrees.of_fewer ?_ fun other id => find_of_find_removeOrphan
  intro other
  rw [refs_removeOrphan, agrees.refs_eq]

theorem drop {watcher : Watcher} (absent : s.thread.watchers.find? watcher = none) :
    Consistent (s.step (.drop watcher)) := by
  refine { agrees with view := ?_ }
  intro other filter present
  have differs : other ≠ watcher := by
    rintro rfl
    simp [step, absent] at present
  exact (update_of_ne differs _ _).trans (agrees.view other filter present)

theorem removeWatcher (watcher : Watcher) : Consistent (s.step (.removeWatcher watcher)) := by
  rw [step, NamingServiceThread.removeWatcher]
  split
  · refine { agrees with
      listed := ⟨agrees.listed.sorted, agrees.listed.nodup⟩, view := ?_ }
    intro other filter present
    rw [KeyedMap.find?_erase] at present
    split at present
    · simp at present
    · exact agrees.view other filter present
  · exact agrees

theorem addWatcher {watcher : Watcher} {filter : NamingServiceFilter Addr}
    (known : s.thread.watchers.find? watcher = none → s.accumulated watcher ⊆ s.passing filter) :
    Consistent (s.step (.addWatcher watcher filter)) := by
  have told_known : s.thread.watchers.find? watcher = none →
      (if s.thread.lastSockets = [] then []
        else [onAddedServers (serverNodeWithId2ServerId s.thread.lastSockets filter)]).foldl
          apply (s.accumulated watcher) = s.passing filter := by
    intro absent
    have passing_eq := agrees.passing_eq filter
    split
    · next empty =>
      rw [empty] at passing_eq
      rw [passing_eq] at known ⊢
      exact Finset.subset_empty.mp (known absent)
    · rw [foldl_cons, foldl_nil, apply, ← passing_eq]
      exact Finset.union_eq_right.mpr (known absent)
  rw [step, NamingServiceThread.addWatcher]
  cases found : s.thread.watchers.find? watcher with
  | some present =>
    refine { agrees with view := ?_ }
    intro other other_filter other_present
    refine Eq.trans ?_ (agrees.view other other_filter other_present)
    change Function.update s.accumulated watcher (s.accumulated watcher) other = _
    rw [update_eq_self]
  | none =>
    refine { agrees with
      listed := ⟨agrees.listed.sorted, agrees.listed.nodup⟩, view := ?_ }
    intro other other_filter present
    rw [KeyedMap.find?_insert] at present
    split at present
    · next same =>
      obtain rfl := Option.some.inj present
      subst same
      exact (update_self ..).trans (told_known found)
    · next differs =>
      exact (update_of_ne differs _ _).trans
        (agrees.view other other_filter present)

end

section Reset

variable {call : ResetCall Addr} {node : ServerNode Addr} {tagged : ServerNodeWithId Addr}

theorem not_mem_added (agrees : Consistent s) (mem : node ∈ s.lastList)
    : node ∉ added s.thread call := by
  rw [mem_added agrees.listed, agrees.mem_lastServers]
  exact fun is_added => is_added.2 mem

omit [DecidableEq Watcher] in
theorem find_insertedMap (node : ServerNode Addr) : (s.insertedMap call).find node =
      if node ∈ added s.thread call then
        some ((s.socketMap.find node).getD (call.created node))
      else s.socketMap.find node :=
  ((insertAll_eq call.created s.socketMap (nodup_added s.thread call)).2 node).1

theorem insertedMap_apart (agrees : Consistent s) (fresh : FreshIds s.socketMap call) :
    (s.insertedMap call).Apart := by
  -- a node of the map either had its socket before or is a new one of the call
  have before_or_new : ∀ node id, (s.insertedMap call).find node = some id →
      s.socketMap.find node = some id ∨ node ∈ call.servers ∧ id = call.created node := by
    intro node id found
    rw [find_insertedMap] at found
    split at found
    · next is_added =>
      cases before : s.socketMap.find node with
      | some old =>
        rw [before] at found
        exact .inl found
      | none =>
        rw [before] at found
        exact .inr ⟨((mem_added agrees.listed).mp is_added).1, (Option.some.inj found).symm⟩
    · exact .inl found
  intro first second id at_first at_second
  rcases before_or_new first id at_first with old_first | ⟨first_mem, rfl⟩
  · rcases before_or_new second id at_second with old_second | ⟨second_mem, rfl⟩
    · exact agrees.apart first second id old_first old_second
    · exact absurd old_first ((fresh second second_mem).1 first)
  · rcases before_or_new second _ at_second with old_second | ⟨second_mem, same⟩
    · exact absurd old_second ((fresh first first_mem).1 second)
    · exact (fresh first first_mem).2 second second_mem same

omit [DecidableEq Watcher] in
theorem mem_addedSockets : tagged ∈ s.addedSockets call ↔ tagged.node ∈ added s.thread call ∧
        (s.insertedMap call).find tagged.node = some tagged.id := by
  rw [addedSockets, (sort_perm _ _).mem_iff,
    (insertAll_eq call.created s.socketMap (nodup_added s.thread call)).1, mem_map]
  constructor
  · rintro ⟨node, mem, rfl⟩
    exact ⟨mem, by rw [find_insertedMap, if_pos mem]⟩
  · rintro ⟨mem, found⟩
    rw [find_insertedMap, if_pos mem] at found
    exact ⟨tagged.node, mem, by rw [Option.some.inj found]⟩

section

variable (agrees : Consistent s)
include agrees

theorem mem_removedSockets : tagged ∈ s.removedSockets call ↔ tagged.node ∈ removed s.thread call ∧
        (s.insertedMap call).find tagged.node = some tagged.id := by
  rw [removedSockets, (sort_perm _ _).mem_iff, mem_map]
  constructor
  · rintro ⟨node, mem, rfl⟩
    refine ⟨mem, ?_⟩
    have listed : node ∈ s.lastList :=
      (agrees.mem_lastServers node).mp ((mem_removed agrees.listed).mp mem).1
    obtain ⟨id, found⟩ := agrees.exists_id listed
    rw [find_insertedMap, if_neg (agrees.not_mem_added listed), found]
    rfl
  · rintro ⟨mem, found⟩
    exact ⟨tagged.node, mem, by rw [found]; rfl⟩

theorem mem_lastSockets_iff (call : ResetCall Addr) : tagged ∈ s.thread.lastSockets ↔
      tagged.node ∈ s.lastList ∧ (s.insertedMap call).find tagged.node = some tagged.id := by
  rw [agrees.mem_lastSockets]
  refine and_congr_right fun mem => ?_
  rw [find_insertedMap, if_neg (agrees.not_mem_added mem)]

theorem mem_refresh :
    tagged ∈ refresh s.thread.lastSockets (s.removedSockets call) (s.addedSockets call) ↔
      tagged.node ∈ call.servers ∧ (s.insertedMap call).find tagged.node = some tagged.id := by
  have removed_sorted : Sorted key (s.removedSockets call) := sort_sorted _ _
  rw [(refresh_perm ..).mem_iff, mem_append,
    mem_setDifference agrees.sorted removed_sorted agrees.nodup
      fun _ _ _ _ same => eq_of_key same,
    agrees.mem_lastSockets_iff call, agrees.mem_removedSockets, mem_addedSockets,
    mem_removed agrees.listed, mem_added agrees.listed, agrees.mem_lastServers]
  tauto

theorem refs_after (node : ServerNode Addr) : (s.step (.resetServers call)).socketMap.refs node =
      s.shares node + if node ∈ call.servers then 1 else 0 := by
  have inserted_refs := fun node =>
    ((insertAll_eq call.created s.socketMap (nodup_added s.thread call)).2 node).2
  have held : ∀ node ∈ removed s.thread call, (s.insertedMap call).refs node ≠ 0 := by
    intro node mem
    have listed := ((mem_removed agrees.listed).mp mem).1
    rw [insertedMap, inserted_refs, agrees.refs_eq,
      if_pos ((agrees.mem_lastServers node).mp listed)]
    split <;> omega
  change ((removed s.thread call).foldl (remove · call.deferClose)
    (s.insertedMap call)).refs node = _
  rw [removeAll_refs (nodup_removed agrees.listed) held, insertedMap, inserted_refs,
    agrees.refs_eq]
  simp only [mem_removed agrees.listed, mem_added agrees.listed, agrees.mem_lastServers]
  by_cases before : node ∈ s.lastList
  · by_cases after : node ∈ call.servers
    · simp [before, after]
    · simp [before, after]
  · by_cases after : node ∈ call.servers
    · simp [before, after]
    · simp [before, after]

end

theorem insertedMap_of_after {id : SocketId}
    (found : (s.step (.resetServers call)).socketMap.find node = some id) :
    (s.insertedMap call).find node = some id :=
  find_of_find_removeAll found

theorem find_after (agrees : Consistent s) (mem : node ∈ call.servers) :
    (s.step (.resetServers call)).socketMap.find node = (s.insertedMap call).find node := by
  have held : (s.step (.resetServers call)).socketMap.refs node ≠ 0 := by
    rw [agrees.refs_after, if_pos mem]
    omega
  obtain ⟨id, found⟩ := find_of_refs held
  rw [found, insertedMap_of_after found]

/-- The notices turn the ids of the old list that pass a filter into those of the new one. -/
theorem view_after (agrees : Consistent s) (fresh : FreshIds s.socketMap call)
    (filter : NamingServiceFilter Addr) :
    (notices (s.removedSockets call) (s.addedSockets call) filter).foldl apply
        (s.passing filter) = (s.step (.resetServers call)).passing filter := by
  rw [foldl_notices, agrees.passing_eq]
  ext server
  rw [mem_passing, Finset.mem_union, Finset.mem_sdiff]
  simp only [mem_toFinset, mem_serverNodeWithId2ServerId]
  constructor
  · rintro (⟨⟨tagged, tagged_mem, taken, rfl⟩, kept⟩ | ⟨tagged, tagged_mem, taken, rfl⟩)
    · obtain ⟨listed, found⟩ := (agrees.mem_lastSockets_iff call).mp tagged_mem
      have still_listed : tagged.node ∈ call.servers := by
        by_contra gone
        refine kept ⟨tagged, agrees.mem_removedSockets.mpr ⟨?_, found⟩, rfl, rfl⟩
        exact (mem_removed agrees.listed).mpr ⟨(agrees.mem_lastServers _).mpr listed, gone⟩
      exact ⟨tagged.node, still_listed, taken, tagged.id,
        (agrees.find_after still_listed).trans found, rfl⟩
    · obtain ⟨is_added, found⟩ := mem_addedSockets.mp tagged_mem
      have listed := ((mem_added agrees.listed).mp is_added).1
      exact ⟨tagged.node, listed, taken, tagged.id,
        (agrees.find_after listed).trans found, rfl⟩
  · rintro ⟨node, listed, taken, id, found, rfl⟩
    rw [agrees.find_after listed] at found
    by_cases before : node ∈ s.lastList
    · refine .inl ⟨⟨⟨node, id⟩, ?_, taken, rfl⟩, ?_⟩
      · exact (agrees.mem_lastSockets_iff call).mpr ⟨before, found⟩
      · -- the id of a removed node is not the id of a node that stays
        rintro ⟨gone, gone_mem, -, same⟩
        obtain ⟨is_removed, gone_found⟩ := agrees.mem_removedSockets.mp gone_mem
        have same_node : gone.node = node := by
          refine agrees.insertedMap_apart fresh _ _ _ gone_found ?_
          rw [found, ServerId.mk.inj same |>.1]
        exact ((mem_removed agrees.listed).mp is_removed).2 (same_node ▸ listed)
    · refine .inr ⟨⟨node, id⟩, mem_addedSockets.mpr ⟨?_, found⟩, taken, rfl⟩
      rw [mem_added agrees.listed, agrees.mem_lastServers]
      exact ⟨listed, before⟩

theorem nodup_refresh (agrees : Consistent s) :
    (refresh s.thread.lastSockets (s.removedSockets call) (s.addedSockets call)).Nodup := by
  have added_nodup : (s.addedSockets call).Nodup := by
    rw [addedSockets, (sort_perm _ _).nodup_iff,
      (insertAll_eq call.created s.socketMap (nodup_added s.thread call)).1]
    refine (nodup_added s.thread call).map fun _ _ same => ?_
    exact (ServerNodeWithId.mk.inj same).1
  rw [(refresh_perm ..).nodup_iff, nodup_append]
  refine ⟨agrees.nodup.sublist setDifference_sublist, added_nodup, ?_⟩
  rintro tagged old_mem _ new_mem rfl
  have listed := ((agrees.mem_lastSockets tagged).mp (setDifference_sublist.subset old_mem)).1
  exact agrees.not_mem_added listed (mem_addedSockets.mp new_mem).1

omit [LinearOrder Addr] [DecidableEq Watcher] in
theorem endWait_eq (thread : NamingServiceThread Addr Watcher) (error : Option Errno) :
    (thread.endWait error).lastServers = thread.lastServers ∧
      (thread.endWait error).lastSockets = thread.lastSockets ∧
      (thread.endWait error).watchers = thread.watchers := by
  rw [endWait]
  split <;> exact ⟨rfl, rfl, rfl⟩

theorem resetServers (agrees : Consistent s) (fresh : FreshIds s.socketMap call) :
    Consistent (s.step (.resetServers call)) := by
  obtain ⟨servers_eq, sockets_eq, watchers_eq⟩ :
      (s.step (.resetServers call)).thread.lastServers = deduplicated call ∧
      (s.step (.resetServers call)).thread.lastSockets =
        refresh s.thread.lastSockets (s.removedSockets call) (s.addedSockets call) ∧
      (s.step (.resetServers call)).thread.watchers = s.thread.watchers := endWait_eq _ _
  exact {
    listed := ⟨servers_eq ▸ deduplicated_sorted, servers_eq ▸ nodup_deduplicated⟩
    mem_lastServers := fun node => by rw [servers_eq]; exact mem_deduplicated
    sorted := sockets_eq ▸ refresh_sorted agrees.sorted (sort_sorted _ _)
    nodup := sockets_eq ▸ agrees.nodup_refresh
    mem_lastSockets := by
      intro tagged
      rw [sockets_eq, agrees.mem_refresh]
      refine and_congr_right fun mem => ?_
      rw [agrees.find_after mem]
    refs_eq := agrees.refs_after
    apart := (agrees.insertedMap_apart fresh).mono fun _ _ => insertedMap_of_after
    view := by
      intro watcher filter present
      rw [watchers_eq] at present
      rw [← agrees.view_after fresh, ← agrees.view watcher filter present]
      refine tell_of_mem ?_ (mem_map.mpr
        ⟨⟨watcher, filter⟩, (KeyedMap.mem_entries_iff _ _ _).mpr present, rfl⟩)
      rw [map_map]
      exact s.thread.watchers.nodupKeys }

end Reset

theorem step (agrees : Consistent s) {event : NamingEvent Addr Watcher}
    (valid : Admissible s event) : Consistent (s.step event) := by
  cases event with
  | resetServers call => exact agrees.resetServers valid
  | addWatcher watcher filter => exact agrees.addWatcher valid
  | removeWatcher watcher => exact agrees.removeWatcher watcher
  | drop watcher => exact agrees.drop valid
  | share node made => exact agrees.share valid
  | unshare node deferClose => exact agrees.unshare deferClose valid
  | removeOrphan node => exact agrees.removeOrphan node

theorem start : Consistent (NamingSystem.start : NamingSystem Addr Watcher) where
  listed := ⟨List.Pairwise.nil, nodup_nil⟩
  mem_lastServers _ := Iff.rfl
  sorted := List.Pairwise.nil
  nodup := nodup_nil
  mem_lastSockets tagged := by simp [NamingSystem.start]
  refs_eq node := rfl
  apart := by
    intro first second id at_first
    cases at_first
  view := by
    intro watcher filter present
    cases present

end Consistent

/-- In every run, a present watcher has accumulated the ids of the last list that pass its filter,
and every node of the last list has an id. -/
theorem accumulated_eq_passing {events : List (NamingEvent Addr Watcher)}
    (admissible : Execution.EveryStep step Admissible start events) :
    Execution.EveryState step (fun s : NamingSystem Addr Watcher =>
      (∀ node ∈ s.lastList, ∃ id, s.socketMap.find node = some id) ∧
        ∀ watcher filter, s.thread.watchers.find? watcher = some filter →
          s.accumulated watcher = s.passing filter) start events := by
  have consistent := everyState_of_everyStep Consistent Consistent.start
    (fun s event holds admitted => Consistent.step holds admitted) admissible
  intro history initial
  exact ⟨fun node => (consistent history initial).exists_id, (consistent history initial).view⟩

def oneServer : ResetCall ℕ := ⟨[⟨1, ""⟩], fun _ => 1, 0, false⟩

def noServer : ResetCall ℕ := ⟨[], fun _ => 1, 0, false⟩

theorem freshIds_oneServer : FreshIds ∅ oneServer := by
  intro node node_mem
  refine ⟨?_, ?_⟩
  · intro other found
    cases found
  · intro other mem _
    rw [mem_singleton.mp node_mem, mem_singleton.mp mem]

/-- A watcher that drops its ids before it is added again. -/
theorem accumulated_eq_passing_dropped :
    let s := [.resetServers oneServer, .addWatcher () none, .removeWatcher (), .drop (),
      .resetServers noServer, .addWatcher () none].foldl step (start : NamingSystem ℕ Unit)
    s.accumulated () = s.passing none := by
  refine (accumulated_eq_passing ?_).final.2 () none rfl
  simp only [everyStep_cons, everyStep_nil]
  have nothing_known : ∀ ids : Finset ServerId, ∅ ⊆ ids := Finset.empty_subset
  refine ⟨freshIds_oneServer, fun _ => nothing_known _, trivial, rfl, ?_, fun _ => nothing_known _,
    trivial⟩
  intro node node_mem
  cases node_mem

theorem mem_accumulated_addWatcher {watcher : Watcher} {filter : NamingServiceFilter Addr}
    {server : ServerId} (known : server ∈ s.accumulated watcher) :
    server ∈ (s.step (.addWatcher watcher filter)).accumulated watcher := by
  have told : server ∈ (s.thread.addWatcher watcher filter).2.1.foldl apply
      (s.accumulated watcher) := by
    rw [NamingServiceThread.addWatcher]
    split
    · exact known
    · dsimp only
      split
      · exact known
      · exact Finset.mem_union_left _ known
  simpa [step, tell] using told

/-- A watcher that is added again with the ids of its first time keeps them. -/
theorem readded_watcher_keeps_ids : let events : List (NamingEvent ℕ Unit) :=
      [.resetServers oneServer, .addWatcher () none, .removeWatcher (), .resetServers noServer,
        .addWatcher () none]
    Execution.EveryStep step
        (fun s event => ∀ call, event = .resetServers call → FreshIds s.socketMap call)
        start events ∧
      (events.foldl step start).thread.watchers.find? () = some none ∧
      ⟨1, ""⟩ ∈ (events.foldl step start).accumulated () ∧
        (events.foldl step start).passing none = ∅ := by
  have first_eq : (start : NamingSystem ℕ Unit).step (.resetServers oneServer) =
      { start with
        thread :=
          { lastServers := [⟨1, ""⟩], lastSockets := [⟨⟨1, ""⟩, 1⟩], waitError := some none }
        socketMap := AList.insert ⟨1, ""⟩ ⟨1, 1⟩ ∅
        lastList := [⟨1, ""⟩] } := by
    simp [step, NamingServiceThread.resetServers, added, removed, deduplicated, oneServer,
      setDifference, start, insertAll, SortedRange.sort, unique, refresh, endWait, tell,
      SocketMap.insert]
  have ids_fresh : ∀ map : SocketMap (ServerNode ℕ), FreshIds map noServer := by
    intro map node node_mem
    cases node_mem
  simp only [everyStep_cons, everyStep_nil, and_true, foldl_cons,
    foldl_nil, first_eq, NamingEvent.resetServers.injEq, forall_eq', reduceCtorEq,
    false_implies, implies_true, true_and]
  refine ⟨⟨freshIds_oneServer, ids_fresh _⟩, rfl, mem_accumulated_addWatcher ?_, rfl⟩
  exact Finset.mem_singleton_self _

end NamingSystem

end McBrpc
