import McBrpc.Library.LeftSums
import McBrpc.Policy.LocalityAware

/-!
# The sums of the locality-aware balancer

The sums tally what has been added at each position.  While a removal is under way, the last node
stands at two positions: what selections add at its old position is moved to the new one at the
end.
-/

namespace McBrpc.LocalityAware

open LeftSums Int WeightUpdate

/-- The weight has been disabled. -/
def Weight.Off (w : Weight) : Prop := w.baseWeight = -1 ∧ w.weight = 0

/-- A change of a weight through an index. -/
structure Weight.Shifts (w after : Weight) (index : Nat) (diff : Int) : Prop where
  weight_eq : after.weight = w.weight + diff
  oldIndex_eq : after.oldIndex = w.oldIndex
  oldWeight_eq : after.oldWeight = w.oldWeight
  oldDiffSum_eq : after.oldDiffSum = w.oldDiffSum + if w.oldIndex = some index then diff else 0
  positive : 0 < w.weight → 0 < after.weight
  off : w.Off → diff = 0 ∧ after.Off

namespace Weight

variable {flags : Flags}

/-- The two weights differ in data only that no sum depends on. -/
structure SameSums (w after : Weight) : Prop where
  weight_eq : after.weight = w.weight
  oldIndex_eq : after.oldIndex = w.oldIndex
  oldWeight_eq : after.oldWeight = w.oldWeight
  oldDiffSum_eq : after.oldDiffSum = w.oldDiffSum

theorem SameSums.shifts {w after : Weight} (same : w.SameSums after)
    (base_eq : w.Off → after.baseWeight = w.baseWeight) (index : Nat) : w.Shifts after index 0 where
  weight_eq := by rw [same.weight_eq, add_zero]
  oldIndex_eq := same.oldIndex_eq
  oldWeight_eq := same.oldWeight_eq
  oldDiffSum_eq := by rw [same.oldDiffSum_eq, ite_self, add_zero]
  positive := by rw [same.weight_eq]; exact id
  off is_off := ⟨rfl, (base_eq is_off).trans is_off.1, same.weight_eq.trans is_off.2⟩

theorem resetWeight_shifts (minimum : 0 < flags.minWeight) {w before : Weight} (on : ¬w.Off)
    (same : w.SameSums before) (index : Nat) (nowUs : Int) :
    w.Shifts (before.resetWeight flags index nowUs).2 index
      (before.resetWeight flags index nowUs).1 := by
  obtain ⟨weight_eq, oldIndex_eq, oldWeight_eq, sum_eq⟩ := same
  rw [resetWeight]
  generalize (if 0 < before.beginTimeCount then _ else before.baseWeight) = newWeight
  refine ⟨?_, oldIndex_eq, oldWeight_eq, ?_, fun _ => ?_, fun off => absurd off on⟩
  · dsimp only
    omega
  · dsimp only
    rw [oldIndex_eq, sum_eq]
    generalize (if newWeight < flags.minWeight then flags.minWeight else newWeight) -
      before.weight = diff
    by_cases marked : w.oldIndex = some index
    · by_cases changed : diff = 0
      · simp [changed]
      · simp [marked, changed]
    · simp [marked]
  · dsimp only
    split
    · exact minimum
    · omega

theorem not_off_of_enabled {w : Weight} (enabled : ¬w.disabled) : ¬w.Off := by
  rintro ⟨base_eq, -⟩
  simp [disabled, base_eq] at enabled

variable (minimum : 0 < flags.minWeight)
include minimum

variable (w : Weight)

theorem addInflight_shifts (begin : Int) (index : Nat) (dice : Int) :
    w.Shifts (w.addInflight flags begin index dice).2.2 index
      (w.addInflight flags begin index dice).2.1 := by
  rw [addInflight]
  split
  · exact SameSums.shifts ⟨rfl, rfl, rfl, rfl⟩ (fun _ => rfl) index
  · next enabled =>
    have reset := resetWeight_shifts minimum (not_off_of_enabled enabled) ⟨rfl, rfl, rfl, rfl⟩
      index begin
    dsimp only
    split
    · exact reset
    · exact { reset with off := fun off => absurd off (not_off_of_enabled enabled) }

theorem markFailed_shifts (index : Nat) {avgWeight : Int} (nonneg : 0 ≤ avgWeight) :
    w.Shifts (w.markFailed flags index avgWeight).2 index
      (w.markFailed flags index avgWeight).1 := by
  rw [markFailed]
  split
  · exact SameSums.shifts ⟨rfl, rfl, rfl, rfl⟩ (fun _ => rfl) index
  · next above =>
    have on : ¬w.Off := by
      rintro ⟨base_eq, -⟩
      omega
    refine resetWeight_shifts minimum on ?_ index 0
    exact ⟨rfl, rfl, rfl, rfl⟩

theorem recalculate_shifts {w before : Weight} (on : ¬w.Off)
    (same : w.SameSums before) (index : Nat) (endTimeUs scaledQps avgLatency : Int) :
    w.Shifts (before.recalculate flags index endTimeUs scaledQps avgLatency).2 index
      (before.recalculate flags index endTimeUs scaledQps avgLatency).1 := by
  obtain ⟨weight_eq, oldIndex_eq, oldWeight_eq, sum_eq⟩ := same
  rw [recalculate]
  split
  · refine SameSums.shifts ?_ (fun off => absurd off on) index
    exact ⟨weight_eq, oldIndex_eq, oldWeight_eq, sum_eq⟩
  · refine resetWeight_shifts minimum on ?_ index endTimeUs
    exact ⟨weight_eq, oldIndex_eq, oldWeight_eq, sum_eq⟩

theorem update_shifts (ci : CallInfo) (index : Nat) :
    w.Shifts (w.update flags ci index).2 index (w.update flags ci index).1 := by
  rw [update]
  dsimp only
  split
  · exact SameSums.shifts ⟨rfl, rfl, rfl, rfl⟩ (fun _ => rfl) index
  · next enabled =>
    have on := not_off_of_enabled enabled
    split
    · refine SameSums.shifts ?_ (fun off => absurd off on) index
      exact ⟨rfl, rfl, rfl, rfl⟩
    · split
      · split
        · refine recalculate_shifts minimum on ?_ index _ _ _
          exact ⟨rfl, rfl, rfl, rfl⟩
        · split
          · refine recalculate_shifts minimum on ?_ index _ _ _
            exact ⟨rfl, rfl, rfl, rfl⟩
          · refine SameSums.shifts ?_ (fun off => absurd off on) index
            exact ⟨rfl, rfl, rfl, rfl⟩
      · refine SameSums.shifts ?_ (fun off => absurd off on) index
        exact ⟨rfl, rfl, rfl, rfl⟩

end Weight

/-- Each node has the entry of the sums at its own position. -/
def Placed (tree : List ServerInfo) : Prop :=
  ∀ (index : Nat) (info : ServerInfo), tree[index]? = some info → info.left = index

section Spread

variable {tree : List ServerInfo} {diff : Int} {index : Nat}

theorem getElem?_updateParent (placed : Placed tree) (lefts : List Int)
    (pos : 0 < index) (inside : index ≤ tree.length) (root : Nat) :
    (updateParent tree diff lefts index)[root]? =
      lefts[root]?.map (· + if index = 2 * root + 1 then diff else 0) := by
  have parent_lt : (index - 1) / 2 < tree.length := by omega
  rw [updateParent]
  split
  · next left_child =>
    rw [List.getElem?_eq_getElem parent_lt, Option.elim_some,
      placed _ _ (List.getElem?_eq_getElem parent_lt), List.getElem?_modify]
    split
    · next here => rw [if_pos (by omega)]; rfl
    · next other => rw [if_neg (by omega)]; simp
  · next right_child =>
    rw [if_neg (by omega)]
    simp

theorem getElem?_updateParentWeights (placed : Placed tree) (lefts : List Int)
    (inside : index ≤ tree.length) (root : Nat) :
    (updateParentWeights tree diff lefts index)[root]? =
      lefts[root]?.map (· + if below (2 * root + 1) index then diff else 0) := by
  fun_induction updateParentWeights tree diff lefts index with
  | case1 lefts =>
    have not_below : below (2 * root + 1) 0 = false := by simp [below]
    simp [not_below]
  | case2 lefts index nonzero ih =>
    rw [ih (by omega), getElem?_updateParent placed lefts (by omega) inside]
    by_cases left_child : index = 2 * root + 1
    · -- the parent is above the left subtree
      have not_below : below (2 * root + 1) ((index - 1) / 2) = false := by
        by_contra is_below
        have := root_le_of_below (by simpa using is_below)
        omega
      have is_below : below (2 * root + 1) index = true := by rw [below, if_pos left_child]
      rw [not_below, is_below, if_pos left_child]
      cases lefts[root]? <;> simp
    · rw [if_neg left_child, below_of_pos left_child (by omega)]
      cases lefts[root]? <;> simp

section

variable (tree : List ServerInfo)

variable (diff : Int) (lefts : List Int) (index : Nat)

theorem length_updateParentWeights :
    (updateParentWeights tree diff lefts index).length = lefts.length := by
  fun_induction updateParentWeights tree diff lefts index with
  | case1 lefts => rfl
  | case2 lefts index nonzero ih =>
    rw [ih, updateParent]
    split
    · cases tree[(index - 1) / 2]? with
      | none => rfl
      | some parent => rw [Option.elim_some, List.length_modify]
    · rfl

theorem updateParentWeights_zero : updateParentWeights tree 0 lefts index = lefts := by
  fun_induction updateParentWeights tree 0 lefts index with
  | case1 lefts => rfl
  | case2 lefts index nonzero ih =>
    rw [ih, updateParent]
    split
    · cases tree[(index - 1) / 2]? with
      | none => rfl
      | some parent =>
        have same : (fun sum : Int => sum + 0) = id := funext add_zero
        rw [Option.elim_some, same, List.modify_id]
    · rfl

theorem ite_updateParentWeights :
    (if diff = 0 then lefts else updateParentWeights tree diff lefts index) =
      updateParentWeights tree diff lefts index := by
  split
  · next none_added => rw [none_added, updateParentWeights_zero]
  · rfl

theorem spread_eq (shared : Shared) : spread tree diff index shared = { shared with
        leftWeights := updateParentWeights tree diff shared.leftWeights index
        total := shared.total + diff } := by
  rw [spread, ← ite_updateParentWeights]
  split
  · next none_added => rw [none_added, add_zero]
  · rfl

end

theorem tallies_updateParentWeights (diff : Int) {lefts : List Int} {total : Int}
    {values : Nat → Int} (tallies : Tallies lefts total values) (placed : Placed tree)
    (inside : index ≤ tree.length) (inside_lefts : index < lefts.length) :
    Tallies (updateParentWeights tree diff lefts index) (total + diff)
      (Function.update values index (values index + diff)) :=
  tallies.add inside_lefts (getElem?_updateParentWeights placed lefts inside)

end Spread

/-- Everything is as before, or the weight of a node is shifted and the difference is spread from
there. -/
def Spreads (servers : Servers) (shared after : Shared) : Prop :=
  after = shared ∨
    ∃ (index : Nat) (info : ServerInfo) (w : Weight) (diff : Int),
      servers.weightTree[index]? = some info ∧ (shared.heap info.weight).Shifts w index diff ∧
        after = spread servers.weightTree diff index (shared.setWeight info.weight w)

theorem changeWeight_spreads (servers : Servers) (shared : Shared) {index : Nat}
    {change : Weight → Int × Weight}
    (shifts : ∀ w : Weight, w.Shifts (change w).2 index (change w).1) :
    Spreads servers shared (changeWeight servers index change shared) := by
  rw [changeWeight]
  cases found : servers.weightTree[index]? with
  | none => exact .inl rfl
  | some info => exact .inr ⟨index, info, _, _, found, shifts _, rfl⟩

theorem WeightUpdate.apply_spreads {flags : Flags} (minimum : 0 < flags.minWeight)
    (servers : Servers) (shared : Shared) (update : WeightUpdate) :
    Spreads servers shared (update.apply flags servers shared) := by
  cases update with
  | addInflight index begin dice =>
    rw [apply]
    refine changeWeight_spreads servers shared fun w => ?_
    exact w.addInflight_shifts minimum begin index dice
  | markFailed index total =>
    rw [apply]
    split
    · next pos =>
      refine changeWeight_spreads servers shared fun w => w.markFailed_shifts minimum index ?_
      exact Int.ediv_nonneg pos.le (Int.natCast_nonneg _)
    · exact .inl rfl
  | feedback info =>
    rw [apply]
    cases servers.serverMap.find? info.serverId with
    | none => exact .inl rfl
    | some index =>
      exact changeWeight_spreads servers shared fun w => w.update_shifts minimum info index

end McBrpc.LocalityAware
