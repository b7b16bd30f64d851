import McBrpc.Policy.LocalityAwareBuffers

/-!
# Runs of the locality-aware balancer

The invariant of each state between the steps of a run: no modification is under way, servers have
been added to one buffer, or a server has been removed from one buffer.
-/

namespace McBrpc.LocalityAware

open LeftSums Balancer DoublyBuffered ServerInfo

/-- What holds between the steps of a run. -/
def Consistent (lb : Balancer) : Prop :=
  match lb.running with
  | none =>
    lb.dbServers.background.weightTree = lb.dbServers.foreground.weightTree ∧
      Settled lb.dbServers.foreground.weightTree lb.shared
  | some (.batchAdd ids) =>
    Settled lb.dbServers.foreground.weightTree lb.shared ∧
      lb.dbServers.background.weightTree <+: lb.dbServers.foreground.weightTree ∧
      ∀ later, ∃ count final,
        batchAdd lb.dbServers.background lb.dbServers.foreground ids later =
            (count, final, later) ∧
          final.weightTree = lb.dbServers.foreground.weightTree
  | some (.remove id) =>
    ∃ index node last, lb.dbServers.background.index.find? id = some index ∧
      Moved lb.dbServers.background.weightTree index last lb.dbServers.foreground.weightTree ∧
      Removing lb.dbServers.background.weightTree index node last lb.shared

theorem remove_of_none {bg : Servers} {id : SocketId} (missing : bg.index.find? id = none)
    (shared : Shared) : remove bg id shared = (false, bg, shared) := by
  rw [remove]
  split
  · rfl
  · next found => simp [missing] at found

theorem remove_of_some {bg : Servers} {id : SocketId} {index : Nat}
    (found : bg.index.find? id = some index) (shared : Shared) :
    remove bg id shared = (true, removeNode bg found shared) := by
  rw [remove]
  split
  · next missing => simp [missing] at found
  · next place found_here =>
    obtain rfl : place = index := Option.some.inj (found_here.symm.trans found)
    rfl

theorem Moved.eq {tree left right : List ServerInfo} {index : Nat} {last : ServerInfo}
    (is_left : Moved tree index last left) (is_right : Moved tree index last right) :
    left = right :=
  List.ext_getElem? fun place => (is_left place).trans (is_right place).symm

namespace Consistent

variable {lb : Balancer}

theorem new : Consistent new := by
  refine ⟨rfl, ?_⟩
  exact {
    placed := fun _ _ here => by cases here
    apart := fun _ _ _ _ here => by cases here
    allocated := fun _ here => by cases here
    length_eq := rfl
    positive := fun _ here => by cases here
    tallies := ⟨fun _ inside => absurd inside (Nat.not_lt_zero _), rfl⟩ }

section

variable (agrees : Consistent lb)
include agrees

theorem publish (idle : lb.running = none)
    (modification : Modification) (waiting : List Modification) :
    Consistent
      (match lb.dbServers.publish modification.fn lb.shared with
      | (0, dbServers, shared) => { lb with dbServers, shared, waiting }
      | (_ + 1, dbServers, shared) =>
        { lb with dbServers, shared, waiting, running := some modification }) := by
  rw [Consistent, idle] at agrees
  obtain ⟨same, fixed⟩ := agrees
  have settled_bg := same ▸ fixed
  have behind : Behind lb.dbServers.background lb.dbServers.foreground := fun id missing =>
    (find?_of_tree same id).symm.trans missing
  cases modification with
  | batchAdd ids =>
    obtain ⟨after_settled, initial, unchanged⟩ := batchAdd_settled ids settled_bg behind
    have follows := batchAdd_follows ids settled_bg behind same.symm List.prefix_rfl
    rw [publish, Modification.fn]
    generalize LocalityAware.batchAdd lb.dbServers.background lb.dbServers.foreground ids
      lb.shared = result at after_settled initial unchanged follows ⊢
    obtain ⟨count, after, shared⟩ := result
    cases count with
    | zero =>
      obtain ⟨rfl, rfl⟩ := Prod.mk.inj (unchanged rfl)
      rw [idle]
      exact ⟨same, fixed⟩
    | succ count => exact ⟨after_settled, same ▸ initial, follows⟩
  | remove id =>
    rw [publish, Modification.fn]
    cases found : lb.dbServers.background.index.find? id with
    | none =>
      rw [remove_of_none found]
      rw [Consistent, idle]
      exact ⟨same, fixed⟩
    | some index =>
      rw [remove_of_some found]
      obtain ⟨node, last, is_moved, removing⟩ := removeNode_first settled_bg found
      refine ⟨index, node, last, ?_, ?_, ?_⟩
      · exact (find?_of_tree same id).symm.trans found
      · exact same ▸ is_moved
      · exact same ▸ removing

theorem synchronize {modification : Modification} (running : lb.running = some modification) :
    Consistent
      (match lb.dbServers.synchronize modification.fn lb.shared with
      | (_, dbServers, shared) => { lb with dbServers, shared, running := none }) := by
  rw [Consistent, running] at agrees
  cases modification with
  | batchAdd ids =>
    obtain ⟨fixed, -, follows⟩ := agrees
    obtain ⟨count, final, final_eq, tree_eq⟩ := follows lb.shared
    rw [synchronize, Modification.fn, final_eq]
    exact ⟨tree_eq, fixed⟩
  | remove id =>
    obtain ⟨index, node, last, found, is_moved, removing⟩ := agrees
    obtain ⟨moved_too, fixed⟩ := removeNode_second found removing
    rw [synchronize, Modification.fn, remove_of_some found]
    exact ⟨moved_too.eq is_moved, moved_too.eq is_moved ▸ fixed⟩

theorem update_foreground {after : Shared}
    (spreads : Spreads lb.dbServers.foreground lb.shared after) :
    Consistent { lb with shared := after } := by
  rw [Consistent] at agrees ⊢
  dsimp only
  split at agrees
  · exact ⟨agrees.1, agrees.2.spreads (fun _ _ here => here) spreads⟩
  · exact ⟨agrees.1.spreads (fun _ _ here => here) spreads, agrees.2⟩
  · obtain ⟨index, node, last, found, is_moved, removing⟩ := agrees
    exact ⟨index, node, last, found, is_moved, removing.spreads_foreground is_moved spreads⟩

theorem update_previous {after : Shared}
    (spreads : Spreads lb.dbServers.background lb.shared after) :
    Consistent { lb with shared := after } := by
  rw [Consistent] at agrees ⊢
  dsimp only
  split at agrees
  · refine ⟨agrees.1, agrees.2.spreads (fun place info here => ?_) spreads⟩
    rwa [agrees.1] at here
  · refine ⟨agrees.1.spreads (fun place info here => ?_) spreads, agrees.2⟩
    obtain ⟨rest, rest_eq⟩ := agrees.2.1
    have inside := (List.getElem?_eq_some_iff.mp here).1
    rw [← rest_eq, List.getElem?_append_left inside]
    exact here
  · obtain ⟨index, node, last, found, is_moved, removing⟩ := agrees
    exact ⟨index, node, last, found, is_moved, removing.spreads_previous rfl spreads⟩

end

theorem step {flags : Flags} (minimum : 0 < flags.minWeight) (agrees : Consistent lb)
    (event : Event) : Consistent (lb.step flags event) := by
  cases event with
  | call call => exact agrees
  | publish =>
    rw [Balancer.step]
    split
    · next modification waiting idle _ => exact agrees.publish idle modification waiting
    · exact agrees
  | synchronize =>
    rw [Balancer.step]
    split
    · exact agrees
    · next modification running => exact agrees.synchronize running
  | update reader update =>
    cases reader with
    | foreground => exact agrees.update_foreground (update.apply_spreads minimum _ _)
    | previous =>
      rw [Balancer.step]
      split
      · exact agrees.update_previous (update.apply_spreads minimum _ _)
      · exact agrees

end Consistent

/-- The maps are the inverses of the trees, the buffers agree, and the sums are those of the
weights. -/
structure Balanced (lb : Balancer) : Prop where
  inverse_foreground : ∀ id index, lb.dbServers.foreground.serverMap.find? id = some index ↔
    lb.dbServers.foreground.weightTree[index]?.map serverId = some id
  inverse_background : ∀ id index, lb.dbServers.background.serverMap.find? id = some index ↔
    lb.dbServers.background.weightTree[index]?.map serverId = some id
  tree_eq : lb.dbServers.background.weightTree = lb.dbServers.foreground.weightTree
  map_eq : ∀ id, lb.dbServers.background.serverMap.find? id =
    lb.dbServers.foreground.serverMap.find? id
  left_eq : ∀ (index : Nat) (info : ServerInfo),
    lb.dbServers.foreground.weightTree[index]? = some info →
    lb.shared.leftWeights[info.left]? =
      some (leftSum (weightAt lb.shared lb.dbServers.foreground.weightTree)
        lb.dbServers.foreground.weightTree.length index)
  total_eq : lb.shared.total = ∑ index ∈ Finset.range lb.dbServers.foreground.weightTree.length,
    weightAt lb.shared lb.dbServers.foreground.weightTree index

/-- In every run of calls, modifications and updates of weights, the balancer is balanced whenever
no modification is under way. -/
theorem balanced_of_idle {flags : Flags} (minimum : 0 < flags.minWeight) (events : List Event)
    (idle : (events.foldl (Balancer.step flags) new).running = none) :
    Balanced (events.foldl (Balancer.step flags) new) := by
  have consistent :=
    Execution.foldl_invariant Consistent events Consistent.new
      fun lb event _ holds => Consistent.step minimum holds event
  rw [Consistent, idle] at consistent
  obtain ⟨tree_eq, settled⟩ := consistent
  refine ⟨?_, ?_, tree_eq, find?_of_tree tree_eq, ?_, ?_⟩
  · intro id index
    rw [← List.getElem?_map]
    exact IndexedList.index_iff _ id index
  · intro id index
    rw [← List.getElem?_map]
    exact IndexedList.index_iff _ id index
  · intro index info here
    have inside := (List.getElem?_eq_some_iff.mp here).1
    rw [settled.placed index info here, settled.tallies.left_eq index (settled.length_eq ▸ inside),
      settled.length_eq]
  · rw [settled.tallies.total_eq, settled.length_eq]

def defaultFlags : Flags := { minWeight := 1000, punishInflight := id, punishError := id }

/-- Two servers are added, and a selection comes in while the first of them is removed. -/
theorem balanced_of_idle_removal :
    Balanced ([.call (.addServersInBatch [⟨1, ""⟩, ⟨2, ""⟩]), .publish, .synchronize,
      .call (.removeServer ⟨1, ""⟩), .publish, .update .previous (.addInflight 1 0 0),
      .synchronize].foldl (Balancer.step defaultFlags) new) :=
  balanced_of_idle (by decide) _ rfl

end McBrpc.LocalityAware
