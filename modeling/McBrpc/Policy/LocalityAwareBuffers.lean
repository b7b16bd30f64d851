import Mathlib.Algebra.Order.BigOperators.Group.Finset
import McBrpc.Library.Execution
import McBrpc.Policy.LocalityAwareSums

/-!
# The buffers of the locality-aware balancer

Whenever no modification is under way, the two trees agree, the map of each is the inverse of its
tree, and the sums and the total are those of the weights.
-/

namespace McBrpc.LocalityAware

open LeftSums Function List Option IndexedList LocalityAware Int Weight

def weightAt (shared : Shared) (tree : List ServerInfo) (index : Nat) : Int :=
  tree[index]?.elim 0 fun info => (shared.heap info.weight).weight

/-- The nodes have their own sums and their own weights. -/
structure Owns (tree : List ServerInfo) (shared : Shared) : Prop where
  placed : Placed tree
  apart : ∀ (left right : Nat) (info other : ServerInfo), tree[left]? = some info →
    tree[right]? = some other → info.weight = other.weight → left = right
  allocated : ∀ info ∈ tree, info.weight < shared.allocated
  length_eq : shared.leftWeights.length = tree.length

/-- The weights of the tree are positive, and the sums are theirs. -/
structure Settled (tree : List ServerInfo) (shared : Shared) : Prop extends Owns tree shared where
  positive : ∀ info ∈ tree, 0 < (shared.heap info.weight).weight
  tallies : Tallies shared.leftWeights shared.total (weightAt shared tree)

section Shared

theorem heap_setWeight (shared : Shared) (address : Nat) (w : Weight) (other : Nat) :
    (shared.setWeight address w).heap other = if other = address then w else shared.heap other :=
  update_apply ..

variable {tree view : List ServerInfo} {shared : Shared} {index : Nat} {after : Shared}

theorem weightAt_of_some {info : ServerInfo} (here : tree[index]? = some info) :
    weightAt shared tree index = (shared.heap info.weight).weight := by
  rw [weightAt, here, elim_some]

theorem Owns.weightAt_setWeight (owns : Owns tree shared) {info : ServerInfo}
    (here : tree[index]? = some info) (w : Weight) (position : Nat) :
    weightAt (shared.setWeight info.weight w) tree position =
      if position = index then w.weight else weightAt shared tree position := by
  by_cases same : position = index
  · subst same
    rw [if_pos rfl, weightAt_of_some here, heap_setWeight, if_pos rfl]
  · rw [if_neg same, weightAt, weightAt]
    cases other_here : tree[position]? with
    | none => rfl
    | some other =>
      have ne : other.weight ≠ info.weight :=
        fun weights => same (owns.apart position index other info other_here here weights)
      rw [elim_some, elim_some, heap_setWeight, if_neg ne]

theorem Owns.mono (owns : Owns tree shared) (allocated : shared.allocated ≤ after.allocated)
    (lengths : after.leftWeights.length = shared.leftWeights.length) : Owns tree after where
  placed := owns.placed
  apart := owns.apart
  allocated info info_mem := (owns.allocated info info_mem).trans_le allocated
  length_eq := lengths.trans owns.length_eq

theorem spread_heap {diff : Int} : (spread tree diff index shared).heap = shared.heap := by
  rw [spread_eq]

theorem spread_allocated {diff : Int} :
    (spread tree diff index shared).allocated = shared.allocated := by
  rw [spread_eq]

theorem spread_length {diff : Int} :
    (spread tree diff index shared).leftWeights.length = shared.leftWeights.length := by
  rw [spread_eq]
  exact length_updateParentWeights ..

theorem Owns.spread (owns : Owns tree shared) (view : List ServerInfo) (diff : Int) (index : Nat)
    (heap : Nat → Weight) :
    Owns tree (spread view diff index { shared with heap }) := by
  refine owns.mono ?_ spread_length
  rw [spread_allocated]

theorem tallies_spread (shared : Shared) {values : Nat → Int}
    (tallies : Tallies shared.leftWeights shared.total values) (placed : Placed view)
    (inside : index ≤ view.length) (inside_lefts : index < shared.leftWeights.length) (diff : Int) :
    Tallies (spread view diff index shared).leftWeights (spread view diff index shared).total
      (update values index (values index + diff)) := by
  rw [spread_eq]
  exact tallies_updateParentWeights diff tallies placed inside inside_lefts

theorem weightAt_congr (same : after.heap = shared.heap) (tree : List ServerInfo) (index : Nat)
    : weightAt after tree index = weightAt shared tree index := by
  rw [weightAt, weightAt, same]

theorem Settled.spreads (fixed : Settled tree shared) {servers : Servers}
    (seen : ∀ (index : Nat) (info : ServerInfo), servers.weightTree[index]? = some info →
      tree[index]? = some info) (spreads : Spreads servers shared after) : Settled tree after := by
  rcases spreads with rfl | ⟨index, info, w, diff, here, shifts, rfl⟩
  · exact fixed
  · have in_tree := seen index info here
    have placed : Placed servers.weightTree :=
      fun position other found => fixed.placed position other (seen position other found)
    have inside := (List.getElem?_eq_some_iff.mp here).1
    have inside_tree : index < tree.length := (List.getElem?_eq_some_iff.mp in_tree).1
    have added := tallies_spread (shared.setWeight info.weight w) fixed.tallies placed
      inside.le (fixed.length_eq ▸ inside_tree) diff
    refine { fixed.toOwns.spread .. with positive := ?_, tallies := added.congr ?_ }
    · intro other mem
      rw [spread_heap, heap_setWeight]
      split
      · exact shifts.positive (fixed.positive info (mem_of_getElem? in_tree))
      · exact fixed.positive other mem
    · intro position _
      rw [weightAt_congr spread_heap, fixed.weightAt_setWeight in_tree]
      by_cases same : position = index
      · subst same
        rw [update_self, if_pos rfl, weightAt_of_some in_tree, shifts.weight_eq]
      · rw [update_of_ne same, if_neg same]

theorem Settled.length_le_total (fixed : Settled tree shared) :
    (tree.length : Int) ≤ shared.total := by
  rw [fixed.tallies.total_eq, fixed.length_eq]
  have at_least : ∀ index ∈ Finset.range tree.length, 1 ≤ weightAt shared tree index := by
    intro index index_mem
    have inside := Finset.mem_range.mp index_mem
    rw [weightAt_of_some (getElem?_eq_getElem inside)]
    exact fixed.positive _ (getElem_mem inside)
  simpa using Finset.card_nsmul_le_sum _ _ 1 at_least

end Shared

section Add

variable {bg fg : Servers} {shared : Shared} {id : SocketId}

theorem Owns.append {tree : List ServerInfo} (owns : Owns tree shared) {info : ServerInfo}
    (left_eq : info.left = shared.leftWeights.length) (weight_eq : info.weight = shared.allocated)
    (heap : Nat → Weight) :
    Owns (tree ++ [info])
      { shared with
        leftWeights := shared.leftWeights ++ [0], heap, allocated := shared.allocated + 1 } := by
  have old_or_new : ∀ (index : Nat) (other : ServerInfo), (tree ++ [info])[index]? = some other →
      tree[index]? = some other ∨ index = tree.length ∧ other = info := by
    intro index other here
    rw [getElem?_append] at here
    split at here
    · exact .inl here
    · next beyond =>
      rw [getElem?_singleton] at here
      split at here
      · exact .inr ⟨by omega, (some.inj here).symm⟩
      · simp at here
  have old_allocated : ∀ (index : Nat) (other : ServerInfo), tree[index]? = some other →
      other.weight ≠ info.weight := by
    intro index other here
    have := owns.allocated other (mem_of_getElem? here)
    omega
  refine ⟨?_, ?_, ?_, ?_⟩
  · intro index other here
    rcases old_or_new index other here with old | ⟨rfl, rfl⟩
    · exact owns.placed index other old
    · rw [left_eq, owns.length_eq]
  · intro left right one other at_left at_right same
    rcases old_or_new left one at_left with old_left | ⟨left_last, rfl⟩
    · rcases old_or_new right other at_right with old_right | ⟨-, rfl⟩
      · exact owns.apart left right one other old_left old_right same
      · exact absurd same (old_allocated left one old_left)
    · rcases old_or_new right other at_right with old_right | ⟨right_last, -⟩
      · exact absurd same.symm (old_allocated right other old_right)
      · rw [left_last, right_last]
  · intro other mem
    rcases mem_append.mp mem with old | new
    · exact (owns.allocated other old).trans (Nat.lt_succ_self _)
    · rw [mem_singleton.mp new, weight_eq]
      exact Nat.lt_succ_self _
  · rw [length_append, length_append, owns.length_eq]
    rfl

theorem Settled.append {tree : List ServerInfo} (fixed : Settled tree shared)
    {info : ServerInfo} (left_eq : info.left = shared.leftWeights.length)
    (weight_eq : info.weight = shared.allocated) {initial : Int} (initial_pos : 0 < initial) :
    Settled (tree ++ [info])
      (spread (tree ++ [info]) initial tree.length { shared with
          leftWeights := shared.leftWeights ++ [0]
          heap := update shared.heap shared.allocated (.new initial)
          allocated := shared.allocated + 1 }) := by
  have owns := fixed.toOwns.append left_eq weight_eq
    (update shared.heap shared.allocated (.new initial))
  have heap_old : ∀ other ∈ tree,
      update shared.heap shared.allocated (.new initial) other.weight =
        shared.heap other.weight :=
    fun other mem => update_of_ne (fixed.allocated other mem).ne _ _
  have none_yet : weightAt shared tree tree.length = 0 := by
    rw [weightAt, getElem?_eq_none le_rfl, elim_none]
  have inside_tree : tree.length ≤ (tree ++ [info]).length := by simp
  have inside_lefts : tree.length < (shared.leftWeights ++ [0]).length := by
    simp [fixed.length_eq]
  have pushed := fixed.tallies.push (fixed.length_eq ▸ none_yet)
  have added := tallies_spread
    { shared with
      leftWeights := shared.leftWeights ++ [0]
      heap := update shared.heap shared.allocated (.new initial)
      allocated := shared.allocated + 1 }
    pushed owns.placed inside_tree inside_lefts initial
  rw [none_yet, zero_add] at added
  refine { owns.mono spread_allocated.ge spread_length with
    positive := ?_, tallies := added.congr ?_ }
  · intro other mem
    rw [spread_heap]
    rcases mem_append.mp mem with old | new
    · dsimp only
      rw [heap_old other old]
      exact fixed.positive other old
    · rw [mem_singleton.mp new, weight_eq]
      dsimp only
      rw [update_self]
      exact initial_pos
  · intro position inside
    rw [weightAt_congr spread_heap]
    by_cases old : position < tree.length
    · rw [update_of_ne old.ne, weightAt_of_some (getElem?_eq_getElem old),
        weightAt_of_some ((getElem?_append_left old).trans (getElem?_eq_getElem old))]
      exact congrArg weight (heap_old _ (getElem_mem old)).symm
    · rw [spread_length, length_append, fixed.length_eq, length_singleton] at inside
      obtain rfl : position = tree.length := by omega
      rw [update_self, weightAt_of_some getElem?_concat_length, weight_eq]
      simp [Weight.new]

theorem insertNew_tree (bg : Servers) (id : SocketId) (fresh : bg.index.find? id = none)
    (shared : Shared) :
    (insertNew bg id fresh shared).1.weightTree =
      bg.weightTree ++ [⟨id, shared.leftWeights.length, shared.allocated⟩] := rfl

theorem insertNew_settled (fixed : Settled bg.weightTree shared)
    (fresh : bg.index.find? id = none) :
    Settled (insertNew bg id fresh shared).1.weightTree (insertNew bg id fresh shared).2 := by
  -- the average of positive weights is positive
  have initial_pos : 0 < if bg.weightTree = [] then weightScale
      else shared.total / bg.weightTree.length := by
    split
    · decide
    · next ne =>
      have length_pos := length_pos_iff.mpr ne
      have enough := fixed.length_le_total
      have at_least : 1 ≤ shared.total / bg.weightTree.length := by
        rw [Int.le_ediv_iff_mul_le (by omega)]
        omega
      omega
  exact fixed.append rfl rfl initial_pos

theorem add_of_some {index : Nat} (found : bg.index.find? id = some index) (fg : Servers)
    (shared : Shared) : add bg fg id shared = (false, bg, shared) := by
  rw [add]
  split
  · rfl
  · next fresh => simp [fresh] at found

theorem add_of_none (fresh : bg.index.find? id = none) (fresh_fg : fg.index.find? id = none)
    (shared : Shared) : add bg fg id shared = (true, insertNew bg id fresh shared) := by
  rw [add]
  split
  · next found => simp [fresh] at found
  · split
    · rfl
    · next found => simp [fresh_fg] at found

theorem add_of_ahead {index : Nat} (fresh : bg.index.find? id = none)
    (found : fg.index.find? id = some index) (shared : Shared) :
    ∃ after : Servers, add bg fg id shared = (true, after, shared) ∧
      after.weightTree = bg.weightTree ++ [fg.itemAt found] := by
  rw [add]
  split
  · next found_bg => simp [fresh] at found_bg
  · split
    · next fresh_fg => simp [fresh_fg] at found
    · next position found_fg =>
      obtain rfl : position = index := some.inj (found_fg.symm.trans found)
      exact ⟨_, rfl, rfl⟩

theorem batchAdd_cons (bg fg : Servers) (id : SocketId) (ids : List SocketId) (shared : Shared) :
    (batchAdd bg fg (id :: ids) shared) =
      ((add bg fg id shared).1.toNat +
          (batchAdd (add bg fg id shared).2.1 fg ids (add bg fg id shared).2.2).1,
        (batchAdd (add bg fg id shared).2.1 fg ids (add bg fg id shared).2.2).2) := rfl

/-- The foreground has no server that the background does not have. -/
def Behind (bg fg : Servers) : Prop := ∀ id, bg.index.find? id = none → fg.index.find? id = none

theorem find?_of_tree {other : Servers} (same : other.weightTree = bg.weightTree) (id : SocketId) :
    other.index.find? id = bg.index.find? id := by
  have items_eq : other.items = bg.items := same
  refine ext fun position => ?_
  rw [other.index_iff, bg.index_iff, items_eq]

theorem Behind.insertNew (behind : Behind bg fg) (fresh : bg.index.find? id = none) :
    Behind (insertNew bg id fresh shared).1 fg := by
  intro other missing
  refine behind other ((bg.find?_eq_none_iff other).mpr fun item mem => ?_)
  exact (find?_eq_none_iff _ other).mp missing item
    (mem_append_left _ mem)

theorem batchAdd_settled (ids : List SocketId) (fixed : Settled bg.weightTree shared)
    (behind : Behind bg fg) :
    Settled (batchAdd bg fg ids shared).2.1.weightTree (batchAdd bg fg ids shared).2.2 ∧
      bg.weightTree <+: (batchAdd bg fg ids shared).2.1.weightTree ∧
        ((batchAdd bg fg ids shared).1 = 0 → (batchAdd bg fg ids shared).2 = (bg, shared)) := by
  induction ids generalizing bg shared with
  | nil => exact ⟨fixed, prefix_rfl, fun _ => rfl⟩
  | cons id ids ih =>
    rw [batchAdd_cons]
    cases fresh : bg.index.find? id with
    | some index =>
      rw [add_of_some fresh, Bool.toNat_false, Nat.zero_add]
      exact ih fixed behind
    | none =>
      rw [add_of_none fresh (behind id fresh)]
      obtain ⟨after_settled, initial, -⟩ :=
        ih (insertNew_settled fixed fresh) (behind.insertNew fresh)
      refine ⟨after_settled, (prefix_append _ _).trans initial, fun none_added => ?_⟩
      simp at none_added

theorem batchAdd_follows (ids : List SocketId) (fixed : Settled bg.weightTree shared)
    (behind : Behind bg fg) {other ahead : Servers} (same : other.weightTree = bg.weightTree)
    (initial : (batchAdd bg fg ids shared).2.1.weightTree <+: ahead.weightTree) (later : Shared) :
    ∃ count final, batchAdd other ahead ids later = (count, final, later) ∧
      final.weightTree = (batchAdd bg fg ids shared).2.1.weightTree := by
  induction ids generalizing bg shared other with
  | nil => exact ⟨0, other, rfl, same⟩
  | cons id ids ih =>
    rw [batchAdd_cons bg] at initial ⊢
    cases fresh : bg.index.find? id with
    | some index =>
      rw [add_of_some fresh] at initial ⊢
      obtain ⟨count, final, final_eq, tree_eq⟩ := ih fixed behind same initial
      rw [batchAdd_cons, add_of_some ((find?_of_tree same id).trans fresh), final_eq]
      exact ⟨_, final, rfl, tree_eq⟩
    | none =>
      rw [add_of_none fresh (behind id fresh)] at initial ⊢
      have after_settled := insertNew_settled fixed fresh
      have after_behind : Behind (insertNew bg id fresh shared).1 fg := behind.insertNew fresh
      -- the new node is at the same position of the buffer that is ahead
      have here : ahead.weightTree[bg.weightTree.length]? =
          some ⟨id, shared.leftWeights.length, shared.allocated⟩ := by
        have new_initial := (batchAdd_settled ids after_settled after_behind).2.1.trans initial
        rw [insertNew_tree] at new_initial
        obtain ⟨rest, rest_eq⟩ := new_initial
        rw [← rest_eq, getElem?_append_left (by simp), getElem?_concat_length]
      have found : ahead.index.find? id = some bg.weightTree.length := by
        rw [ahead.index_iff, getElem?_map]
        exact congrArg (Option.map ServerInfo.serverId) here
      obtain ⟨next, next_eq, next_tree⟩ :=
        add_of_ahead ((find?_of_tree same id).trans fresh) found later
      have item_eq := some.inj ((getElem?_itemAt found).symm.trans here)
      rw [item_eq, same, ← insertNew_tree bg id fresh] at next_tree
      obtain ⟨count, final, final_eq, tree_eq⟩ :=
        ih after_settled after_behind next_tree initial
      rw [batchAdd_cons, next_eq, final_eq]
      exact ⟨_, final, rfl, tree_eq⟩

end Add

variable {tree : List ServerInfo} {index : Nat} {node last : ServerInfo} {shared : Shared}

/-- The tree after the last node has taken the place of the node at the index. -/
def Moved (tree : List ServerInfo) (index : Nat) (last : ServerInfo) (moved : List ServerInfo) :
    Prop :=
  ∀ position : Nat, moved[position]? =
    if position + 1 < tree.length then
      if position = index then some { last with left := index } else tree[position]?
    else none

/-- What has been added at each position in the middle of a removal: the last node stands at two
positions, unless it is the one that is removed. -/
def halfWeight (shared : Shared) (tree : List ServerInfo) (index : Nat) (last : ServerInfo)
    (position : Nat) : Int :=
  if index + 1 = tree.length then weightAt shared tree position
  else if position = index then
    (shared.heap last.weight).weight - (shared.heap last.weight).oldDiffSum
  else if position + 1 = tree.length then
    (shared.heap last.weight).oldWeight + (shared.heap last.weight).oldDiffSum
  else weightAt shared tree position

/-- The middle of a removal: one buffer still has the tree. -/
structure Removing (tree : List ServerInfo) (index : Nat) (node last : ServerInfo)
    (shared : Shared) : Prop extends Owns tree shared where
  node_eq : tree[index]? = some node
  last_eq : tree[tree.length - 1]? = some last
  off : (shared.heap node.weight).Off
  positive : ∀ info ∈ tree, info.weight ≠ node.weight → 0 < (shared.heap info.weight).weight
  marked : index + 1 ≠ tree.length →
    (shared.heap last.weight).oldIndex = some (tree.length - 1)
  tallies : Tallies shared.leftWeights shared.total (halfWeight shared tree index last)

theorem Removing.inside (removing : Removing tree index node last shared) : index < tree.length :=
  (List.getElem?_eq_some_iff.mp removing.node_eq).1

variable {view moved : List ServerInfo} {position : Nat} {w : Weight} {after : Shared}

section Shift

variable (removing : Removing tree index node last shared) {place : Nat} {owner : ServerInfo}
  {diff : Int} (owner_eq : tree[place]? = some owner)
  (moves : place = position ∨ position = index ∧ place + 1 = tree.length ∧ index + 1 ≠ tree.length)
  (shifts : (shared.heap owner.weight).Shifts w position diff)
include removing owner_eq moves shifts

/-- The difference arrives at the position that it is spread from: a difference at the old position
of the last node is in its `oldDiffSum`. -/
theorem Removing.halfWeight_shift (other : Nat) :
    update (halfWeight shared tree index last) position
        (halfWeight shared tree index last position + diff) other =
      halfWeight (spread view diff position (shared.setWeight owner.weight w)) tree index last
        other := by
  have index_inside := removing.inside
  have weight_after : ∀ place', weightAt (spread view diff position
      (shared.setWeight owner.weight w)) tree place' =
        if place' = place then w.weight else weightAt shared tree place' := fun place' => by
    rw [weightAt_congr spread_heap, removing.weightAt_setWeight owner_eq]
  have weight_before : weightAt shared tree place = (shared.heap owner.weight).weight :=
    weightAt_of_some owner_eq
  have last_after : (spread view diff position (shared.setWeight owner.weight w)).heap last.weight =
      if last.weight = owner.weight then w else shared.heap last.weight := by
    rw [spread_heap, heap_setWeight]
  have weight_eq := shifts.weight_eq
  rw [update_apply, halfWeight, halfWeight, halfWeight, weight_after, last_after]
  by_cases at_end : index + 1 = tree.length
  · obtain rfl : place = position := moves.resolve_right fun middle => middle.2.2 at_end
    split
    · rw [weight_before, weight_eq]
    · rfl
  · simp only [if_neg at_end]
    by_cases is_last : place + 1 = tree.length
    · -- the last node, seen at its old position or at its new one
      obtain rfl : owner = last := by
        have := removing.last_eq
        rw [show tree.length - 1 = place by omega, owner_eq] at this
        exact some.inj this
      have oldWeight_eq := shifts.oldWeight_eq
      have oldDiffSum_eq := shifts.oldDiffSum_eq
      rw [removing.marked at_end] at oldDiffSum_eq
      rcases moves with rfl | ⟨rfl, -, -⟩
      · rw [if_pos (by rw [show tree.length - 1 = place by omega])] at oldDiffSum_eq
        split_ifs
        all_goals omega
      · rw [if_neg (by intro same; have := some.inj same; omega)] at oldDiffSum_eq
        split_ifs
        all_goals omega
    · obtain rfl : place = position := moves.resolve_right fun middle => is_last middle.2.1
      have apart : last.weight ≠ owner.weight := by
        intro same
        have := removing.apart _ place last owner removing.last_eq owner_eq same
        omega
      by_cases removed : place = index
      · -- the removed node does not shift
        obtain rfl : owner = node := by
          have := removing.node_eq
          rw [← removed, owner_eq] at this
          exact some.inj this
        have none_added := (shifts.off removing.off).1
        split_ifs
        all_goals omega
      · split_ifs
        all_goals omega

theorem Removing.shift (placed : Placed view) (inside : position < view.length)
    (inside_tree : position < tree.length) :
    Removing tree index node last
      (spread view diff position (shared.setWeight owner.weight w)) := by
  have added := tallies_spread (shared.setWeight owner.weight w) removing.tallies placed inside.le
    (removing.length_eq ▸ inside_tree) diff
  refine { removing.toOwns.spread .. with
    node_eq := removing.node_eq, last_eq := removing.last_eq
    off := ?_, positive := ?_, marked := fun middle => ?_, tallies := added.congr ?_ }
  · rw [spread_heap, heap_setWeight]
    split
    · next same => exact (shifts.off (same ▸ removing.off)).2
    · exact removing.off
  · intro info mem ne
    rw [spread_heap, heap_setWeight]
    split
    · next same => exact shifts.positive (same ▸ removing.positive info mem ne)
    · exact removing.positive info mem ne
  · rw [spread_heap, heap_setWeight]
    split
    · next same => rw [shifts.oldIndex_eq, ← same, removing.marked middle]
    · exact removing.marked middle
  · intro other other_inside
    exact removing.halfWeight_shift owner_eq moves shifts other

end Shift

theorem Moved.placed (is_moved : Moved tree index last moved) (placed : Placed tree)
    : Placed moved := by
  intro position info here
  rw [is_moved] at here
  split at here
  · split at here
    · next same => rw [← some.inj here, same]
    · exact placed position info here
  · simp at here

theorem Removing.spreads_previous (removing : Removing tree index node last shared)
    {servers : Servers} (tree_eq : servers.weightTree = tree)
    (spreads : Spreads servers shared after) : Removing tree index node last after := by
  rcases spreads with rfl | ⟨position, info, w, diff, here, shifts, rfl⟩
  · exact removing
  · rw [tree_eq] at here ⊢
    have inside : position < tree.length := (List.getElem?_eq_some_iff.mp here).1
    exact removing.shift here (.inl rfl) shifts removing.placed inside inside

theorem Removing.spreads_foreground (removing : Removing tree index node last shared)
    {servers : Servers} (is_moved : Moved tree index last servers.weightTree)
    (spreads : Spreads servers shared after) : Removing tree index node last after := by
  rcases spreads with rfl | ⟨position, info, w, diff, here, shifts, rfl⟩
  · exact removing
  · have placed := is_moved.placed removing.placed
    have inside := (List.getElem?_eq_some_iff.mp here).1
    rw [is_moved] at here
    split at here
    · next before_last =>
      have inside_tree : position < tree.length := by omega
      split at here
      · next same =>
        obtain rfl := some.inj here
        have shifted := removing.shift removing.last_eq (.inr ⟨same, by omega, by omega⟩) shifts
          placed inside inside_tree
        exact shifted
      · exact removing.shift here (.inl rfl) shifts placed inside inside_tree
    · simp at here

variable {bg : Servers} {id : SocketId}

section MoveLast

variable (found : bg.index.find? id = some index)

theorem weightTree_moveLast : (moveLast bg found).weightTree =
      (swapOut bg.weightTree index).mapIdx fun position info =>
        if position = index then { info with left := (bg.itemAt found).left } else info := rfl

theorem moveLast_moved (placed : Placed bg.weightTree)
    (last_eq : bg.weightTree.getLast? = some last) :
    Moved bg.weightTree index last (moveLast bg found).weightTree := by
  have left_eq := placed index _ (getElem?_itemAt found)
  have inside : index < bg.weightTree.length := position_lt found
  intro position
  rw [weightTree_moveLast, getElem?_mapIdx, getElem?_swapOut inside, last_eq, left_eq]
  split_ifs
  · rfl
  · rfl
  · exact map_id' ..
  · rfl

theorem length_moveLast : (moveLast bg found).weightTree.length = bg.weightTree.length - 1 := by
  rw [weightTree_moveLast, length_mapIdx, length_swapOut]

include found

theorem exists_last : ∃ last, bg.weightTree.getLast? = some last ∧
      bg.weightTree[bg.weightTree.length - 1]? = some last := by
  have inside : index < bg.weightTree.length := position_lt found
  have ne : bg.weightTree ≠ [] := ne_nil_of_length_pos (by omega)
  exact ⟨_, getLast?_eq_some_getLast ne,
    getLast?_eq_getElem?.symm.trans (getLast?_eq_some_getLast ne)⟩

end MoveLast

/-- With the removed node disabled and the last one marked, the difference of their weights leads
to the middle of a removal. -/
theorem Settled.removing (fixed : Settled tree shared) (node_eq : tree[index]? = some node)
    (last_eq : tree[tree.length - 1]? = some last) (heap : Nat → Weight)
    (off : (heap node.weight).Off) (same : ∀ info ∈ tree, info.weight ≠ node.weight →
      (heap info.weight).weight = (shared.heap info.weight).weight)
    (marked : index + 1 ≠ tree.length → (heap last.weight).oldIndex = some (tree.length - 1) ∧
        (heap last.weight).oldWeight = (heap last.weight).weight ∧
          (heap last.weight).oldDiffSum = 0) (placed : Placed view)
    (inside_view : index ≤ view.length) :
    Removing tree index node last
      (spread view ((if index + 1 = tree.length then 0 else (shared.heap last.weight).weight) -
          (shared.heap node.weight).weight)
        index { shared with heap }) := by
  have inside : index < tree.length := (List.getElem?_eq_some_iff.mp node_eq).1
  have node_weight : weightAt shared tree index = (shared.heap node.weight).weight :=
    weightAt_of_some node_eq
  have last_weight : weightAt shared tree (tree.length - 1) = (shared.heap last.weight).weight :=
    weightAt_of_some last_eq
  have ne : ∀ position info, position ≠ index → tree[position]? = some info →
      info.weight ≠ node.weight := fun position info apart here weights =>
    apart (fixed.apart position index info node here node_eq weights)
  have weight_same : ∀ position ≠ index,
      weightAt { shared with heap } tree position = weightAt shared tree position := by
    intro position apart
    cases here : tree[position]? with
    | none => rw [weightAt, weightAt, here]; rfl
    | some info =>
      rw [weightAt_of_some here, weightAt_of_some here]
      exact same info (mem_of_getElem? here) (ne position info apart here)
  have added := tallies_spread { shared with heap } fixed.tallies placed inside_view
    (fixed.length_eq ▸ inside)
    ((if index + 1 = tree.length then 0 else (shared.heap last.weight).weight) -
      (shared.heap node.weight).weight)
  refine { fixed.toOwns.spread .. with
    node_eq := node_eq, last_eq := last_eq, off := ?_, positive := ?_, marked := fun middle => ?_
    tallies := added.congr fun position _ => ?_ }
  · rw [spread_heap]
    exact off
  · intro info mem apart
    rw [spread_heap]
    exact (same info mem apart).symm ▸ fixed.positive info mem
  · rw [spread_heap]
    exact (marked middle).1
  · rw [update_apply, halfWeight, weightAt_congr spread_heap, spread_heap]
    by_cases at_end : index + 1 = tree.length
    · rw [if_pos at_end, if_pos at_end]
      split
      · next here =>
        rw [here, weightAt_of_some node_eq, weightAt_of_some node_eq]
        have := off.2
        dsimp only at this ⊢
        omega
      · next elsewhere => rw [weight_same position elsewhere]
    · obtain ⟨-, oldWeight_eq, sum_eq⟩ := marked at_end
      have last_same := same last (mem_of_getElem? last_eq)
        (ne _ last (by omega) last_eq)
      dsimp only
      split_ifs with here is_last
      · omega
      · rw [oldWeight_eq, sum_eq, last_same, ← last_weight,
          show tree.length - 1 = position by omega, add_zero]
      · rw [weight_same position here]

/-- The first buffer: the removed weight leaves the sums, and that of the last node is added at its
new position. -/
theorem removeNode_first (fixed : Settled bg.weightTree shared)
    (found : bg.index.find? id = some index) :
    ∃ node last, Moved bg.weightTree index last (removeNode bg found shared).1.weightTree ∧
      Removing bg.weightTree index node last (removeNode bg found shared).2 := by
  obtain ⟨last, getLast_eq, last_eq⟩ := exists_last found
  have node_eq := getElem?_itemAt found
  have inside : index < bg.weightTree.length := position_lt found
  have is_moved := moveLast_moved found fixed.placed getLast_eq
  have placed := is_moved.placed fixed.placed
  have length_eq := length_moveLast found
  have inside_moved : index ≤ (moveLast bg found).weightTree.length := by omega
  have rm_pos := fixed.positive _ (mem_of_getElem? node_eq)
  refine ⟨bg.itemAt found, last, ?_⟩
  rw [removeNode]
  dsimp [disable, markOld]
  rw [getLast_eq, getD_some, if_pos rm_pos.ne', if_pos rm_pos.ne']
  split
  · next at_end =>
    have removing := fixed.removing node_eq last_eq
      (shared.setWeight (bg.itemAt found).weight
        { shared.heap (bg.itemAt found).weight with baseWeight := -1, weight := 0 }).heap
      ?_ ?_ ?_ placed inside_moved
    · rw [if_pos (by omega), zero_sub] at removing
      exact ⟨is_moved, removing⟩
    · rw [heap_setWeight, if_pos rfl]
      exact ⟨rfl, rfl⟩
    · intro info _ apart
      rw [heap_setWeight, if_neg apart]
    · intro middle
      omega
  · next middle =>
    have apart : last.weight ≠ (bg.itemAt found).weight := by
      intro same
      have := fixed.apart _ _ last _ last_eq node_eq same
      omega
    rw [heap_setWeight, if_neg apart]
    have removing := fixed.removing node_eq last_eq
      ((shared.setWeight (bg.itemAt found).weight
        { shared.heap (bg.itemAt found).weight with baseWeight := -1, weight := 0 }).setWeight
          last.weight { shared.heap last.weight with
            oldWeight := (shared.heap last.weight).weight
            oldDiffSum := 0
            oldIndex := some (moveLast bg found).weightTree.length }).heap
      ?_ ?_ ?_ placed inside_moved
    · rw [if_neg (by omega)] at removing
      exact ⟨is_moved, removing⟩
    · rw [heap_setWeight, if_neg apart.symm, heap_setWeight, if_pos rfl]
      exact ⟨rfl, rfl⟩
    · intro info _ other
      rw [heap_setWeight, heap_setWeight, if_neg other]
      split
      · next same => rw [same]
      · rfl
    · intro _
      rw [heap_setWeight, if_pos rfl, length_eq]
      exact ⟨rfl, rfl, rfl⟩

theorem Moved.exists_origin (is_moved : Moved tree index last moved)
    (last_eq : tree[tree.length - 1]? = some last) {info : ServerInfo}
    (here : moved[position]? = some info) :
    ∃ origin owner, tree[origin]? = some owner ∧ owner.weight = info.weight ∧ origin ≠ index ∧
      position + 1 < tree.length ∧
      origin = if position = index then tree.length - 1 else position := by
  rw [is_moved] at here
  split at here
  · next inside =>
    split at here
    · next same =>
      obtain rfl := some.inj here
      exact ⟨_, last, last_eq, rfl, by omega, inside, (if_pos same).symm⟩
    · next ne => exact ⟨position, info, here, rfl, ne, inside, (if_neg ne).symm⟩
  · simp at here

theorem Moved.length_eq (is_moved : Moved tree index last moved) (inside : index < tree.length)
    : moved.length = tree.length - 1 := by
  refine Nat.le_antisymm ?_ ?_
  · rw [← List.getElem?_eq_none_iff, is_moved, if_neg (by omega)]
  · have := is_moved moved.length
    rw [getElem?_eq_none le_rfl] at this
    split at this
    · next before =>
      split at this
      · simp at this
      · have := List.getElem?_eq_none_iff.mp this.symm
        omega
    · omega

/-- Once nothing is left at the last position, and the last node has its weight at the index, the
removal is over. -/
theorem Removing.settled (removing : Removing tree index node last shared)
    (is_moved : Moved tree index last moved) (allocated : after.allocated = shared.allocated)
    (length_eq : after.leftWeights.length = shared.leftWeights.length)
    (same : ∀ address, (after.heap address).weight = (shared.heap address).weight)
    {values : Nat → Int} (tallies : Tallies after.leftWeights after.total values)
    (nothing_left : values (tree.length - 1) = 0)
    (others : ∀ position, position + 1 < tree.length → values position =
      if position = index then (shared.heap last.weight).weight
      else weightAt shared tree position) : Settled moved after.popLeft where
  placed := is_moved.placed removing.placed
  apart := by
    intro left right info other at_left at_right weights
    obtain ⟨from_left, owner, owner_eq, owner_weight, -, inside_left, rfl⟩ :=
      is_moved.exists_origin removing.last_eq at_left
    obtain ⟨from_right, owner', owner_eq', owner_weight', -, inside_right, rfl⟩ :=
      is_moved.exists_origin removing.last_eq at_right
    have origins := removing.apart _ _ owner owner' owner_eq owner_eq'
      (owner_weight.trans (weights.trans owner_weight'.symm))
    split_ifs at origins
    all_goals omega
  allocated := by
    intro info mem
    obtain ⟨position, here⟩ := getElem?_of_mem mem
    obtain ⟨origin, owner, owner_eq, owner_weight, -⟩ :=
      is_moved.exists_origin removing.last_eq here
    rw [← owner_weight]
    exact (removing.allocated owner (mem_of_getElem? owner_eq)).trans_eq allocated.symm
  length_eq := by
    rw [Shared.popLeft, length_dropLast, length_eq, removing.length_eq,
      is_moved.length_eq removing.inside]
  positive := by
    intro info mem
    obtain ⟨position, here⟩ := getElem?_of_mem mem
    obtain ⟨origin, owner, owner_eq, owner_weight, kept, -⟩ :=
      is_moved.exists_origin removing.last_eq here
    have ne : owner.weight ≠ node.weight := fun weights =>
      kept (removing.apart origin index owner node owner_eq removing.node_eq weights)
    have positive := removing.positive owner (mem_of_getElem? owner_eq) ne
    rw [← owner_weight]
    exact positive.trans_eq (same owner.weight).symm
  tallies := by
    have popped := tallies.pop (by rw [length_eq, removing.length_eq]; exact nothing_left)
    refine popped.congr fun position inside => ?_
    rw [length_dropLast, length_eq, removing.length_eq] at inside
    have before_last : position + 1 < tree.length := by omega
    have moved_weight : weightAt after.popLeft moved position =
        if position = index then (after.heap last.weight).weight
        else weightAt after tree position := by
      rw [weightAt, is_moved, if_pos before_last]
      split <;> rfl
    rw [others position before_last, moved_weight, same, weightAt, weightAt]
    simp [same]

theorem Weight.Off.disable (off : w.Off) : w.disable = (0, w) := by
  obtain ⟨base_eq, weight_eq⟩ := off
  cases w
  subst base_eq weight_eq
  rfl

theorem setWeight_self (shared : Shared) (address : Nat) :
    shared.setWeight address (shared.heap address) = shared := by
  rw [Shared.setWeight, update_eq_self]

/-- The second buffer: what was added at the old position of the last node is moved to its new
one. -/
theorem removeNode_second (found : bg.index.find? id = some index)
    (removing : Removing bg.weightTree index node last shared) :
    Moved bg.weightTree index last (removeNode bg found shared).1.weightTree ∧
      Settled (removeNode bg found shared).1.weightTree (removeNode bg found shared).2 := by
  obtain ⟨last', getLast_eq, last_eq⟩ := exists_last found
  obtain rfl : last' = last := some.inj (last_eq.symm.trans removing.last_eq)
  obtain rfl : bg.itemAt found = node :=
    some.inj ((getElem?_itemAt found).symm.trans removing.node_eq)
  have inside := removing.inside
  have is_moved := moveLast_moved found removing.placed getLast_eq
  have placed := is_moved.placed removing.placed
  have length_eq := length_moveLast found
  rw [removeNode]
  dsimp only
  rw [removing.off.disable]
  rw [setWeight_self, getLast_eq, getD_some]
  split
  · next at_end =>
    have at_end : index + 1 = bg.weightTree.length := by omega
    refine ⟨is_moved, removing.settled is_moved rfl rfl (fun _ => rfl) removing.tallies ?_ ?_⟩
    · rw [halfWeight, if_pos at_end, show bg.weightTree.length - 1 = index by omega,
        weightAt_of_some removing.node_eq]
      exact removing.off.2
    · intro position before_last
      rw [halfWeight, if_pos at_end, if_neg (by omega)]
  · next middle =>
    have middle : index + 1 ≠ bg.weightTree.length := by omega
    refine ⟨is_moved, ?_⟩
    rw [ite_updateParentWeights, ite_updateParentWeights, length_eq]
    generalize w_eq : shared.heap last'.weight = w
    have inside_moved : index ≤ (moveLast bg found).weightTree.length := by omega
    have last_moved : bg.weightTree.length - 1 ≤ (moveLast bg found).weightTree.length := by omega
    have last_lefts : bg.weightTree.length - 1 < (updateParentWeights
        (moveLast bg found).weightTree w.oldDiffSum shared.leftWeights index).length := by
      rw [length_updateParentWeights, removing.length_eq]
      omega
    have at_index := tallies_updateParentWeights w.oldDiffSum removing.tallies placed inside_moved
      (removing.length_eq ▸ inside)
    have at_last := tallies_updateParentWeights (-w.oldWeight - w.oldDiffSum) at_index placed
      last_moved last_lefts
    rw [show shared.total + w.oldDiffSum + (-w.oldWeight - w.oldDiffSum) =
      shared.total - w.oldWeight by omega] at at_last
    refine removing.settled is_moved rfl ?_ ?_ at_last ?_ ?_
    · rw [length_updateParentWeights, length_updateParentWeights]
    · intro address
      rw [heap_setWeight]
      split
      · next same => rw [same, w_eq]; rfl
      · rfl
    · rw [update_self, update_of_ne (by omega), halfWeight, if_neg middle,
        if_neg (by omega), if_pos (by omega), w_eq]
      omega
    · intro position before_last
      rw [update_of_ne (by omega), update_apply, halfWeight, halfWeight,
        if_neg middle, if_pos rfl, if_neg middle, w_eq]
      split
      · omega
      · rw [if_neg (by omega)]

end McBrpc.LocalityAware
