import McBrpc.LbStat.HashLookup

/-!
# Clearing keys of the multi-level hash

`clear` empties the slot of the key and copies the values of its deeper slots up, whatever keys
they hold.  A copied value stays in its old slot too, and an emptied slot ends the searches for
deeper keys that pass it.
-/

namespace McBrpc

open Function List HashSlot
namespace MultiLevelHash

open Execution

variable {Slot : Type} [HashSlot Slot]

/-- No key occupies two slots. -/
def Distinct (hash : MultiLevelHash) (slots : Nat → Slot) : Prop :=
  ∀ slot < slotNum hash.levels, ∀ slot' < slotNum hash.levels,
    HashSlot.key (slots slot) ≠ [] → HashSlot.key (slots slot) = HashSlot.key (slots slot') →
      slot = slot'

/-- `clear` removes the key, keeps what is found for every other key and leaves no key twice. -/
def ClearsKey (hash : MultiLevelHash) (slots : Nat → Slot) (key : List UInt8) : Prop :=
  (hash.find (hash.clear slots key).1 key).1 = hashNotFound ∧
    (∀ other, other ≠ key →
      hash.findValue (hash.clear slots key).1 other = hash.findValue slots other) ∧
    Distinct hash (hash.clear slots key).1

/-- When the key is stored on a level, its slot on the next level is empty and no key stored on
a deeper level shares its slot. -/
def Unshared (hash : MultiLevelHash) (slots : Nat → Slot) (key : List UInt8) : Prop :=
  ∀ (index : Nat) (level : HashLevel), hash.levels[index]? = some level →
    HashSlot.key (slots (level.slot key)) = key → key ≠ [] →
      (∀ next : HashLevel, hash.levels[index + 1]? = some next →
        HashSlot.key (slots (next.slot key)) = []) ∧
      ∀ (index' : Nat) (deeper : HashLevel), index < index' → hash.levels[index']? = some deeper →
        ∀ slot, deeper.hashTable ≤ slot → slot < deeper.hashTable + deeper.itemNum →
          HashSlot.key (slots slot) ≠ [] →
            level.slot (HashSlot.key (slots slot)) ≠ level.slot key

variable {hash : MultiLevelHash}

theorem Ready.find_eq_hashNotFound_iff (ready : hash.Ready Slot) (slots : Nat → Slot)
    (key : List UInt8) :
    (hash.find slots key).1 = hashNotFound ↔ ready.table.lookup slots key = none := by
  refine ⟨fun code_eq => ?_, ready.find_of_lookup_none⟩
  cases found : ready.table.lookup slots key with
  | none => rfl
  | some val =>
    obtain ⟨slot, find_eq, -⟩ := ready.find_of_lookup_some found
    rw [find_eq] at code_eq
    exact absurd code_eq (show hashSuccess ≠ hashNotFound by decide)

theorem Ready.clearsKey_iff (ready : hash.Ready Slot) (slots : Nat → Slot) (key : List UInt8) :
    ClearsKey hash slots key ↔
      ready.table.lookup (hash.clear slots key).1 key = none ∧
      (∀ other, other ≠ key →
        ready.table.lookup (hash.clear slots key).1 other = ready.table.lookup slots other) ∧
      Distinct hash (hash.clear slots key).1 := by
  rw [ClearsKey, ready.find_eq_hashNotFound_iff]
  refine and_congr_right fun _ => and_congr_left fun _ => forall₂_congr fun other _ => ?_
  rw [ready.findValue_eq, ready.findValue_eq]
  constructor
  · intro same
    exact (Prod.mk.inj same).2
  · intro same
    rw [same]

variable {slots : Nat → Slot} {key : List UInt8} {before deeper : List HashLevel}

theorem Ready.distinct_of_placed (ready : hash.Ready Slot) (placed : ready.table.Placed slots)
    : Distinct hash slots := by
  intro slot inside slot' inside' used same
  exact placed.eq_of_holds inside inside' ⟨rfl, used⟩ ⟨same.symm, used⟩

theorem clearIn_of_passed (passed : ∀ level ∈ before, HashSlot.key (slots (level.slot key)) ≠ [] ∧
      HashSlot.key (slots (level.slot key)) ≠ key) (rest : List HashLevel) :
    clearIn slots key (before ++ rest) = clearIn slots key rest := by
  induction before with
  | nil => rfl
  | cons level before ih =>
    obtain ⟨first, later⟩ := forall_mem_cons.mp passed
    rw [cons_append]
    simp only [clearIn, first.1, first.2, if_false]
    exact ih later

theorem clearIn_of_missing {levels : List HashLevel} {val : Option Nat}
    (missing : (findIn slots key levels val).1 = hashNotFound) :
    clearIn slots key levels = (slots, hashNotFound) := by
  induction levels generalizing val with
  | nil => rfl
  | cons level levels ih =>
    by_cases vacant : HashSlot.key (slots (level.slot key)) = []
    · simp [clearIn, vacant]
    · by_cases same : HashSlot.key (slots (level.slot key)) = key
      · simp only [findIn, same, if_true] at missing
        rw [if_neg (same ▸ vacant)] at missing
        exact absurd missing (show hashSuccess ≠ hashNotFound by decide)
      · simp only [findIn, vacant, same, if_false] at missing
        simp only [clearIn, vacant, same, if_false]
        exact ih missing

theorem Ready.clear_of_missing (ready : hash.Ready Slot)
    (missing : ready.table.lookup slots key = none) : (hash.clear slots key).1 = slots := by
  have code_eq := ready.find_of_lookup_none missing
  rw [find, if_pos ready.initDone] at code_eq
  rw [clear, if_pos ready.initDone, clearIn_of_missing code_eq]

theorem Ready.clear_of_holds (ready : hash.Ready Slot) {slot : Nat}
    (placed : ready.table.Placed slots) (inside : slot < slotNum hash.levels)
    (holds : ready.table.Holds slots key slot) :
    ∃ (before : List HashLevel) (level : HashLevel) (deeper : List HashLevel),
      hash.levels = before ++ level :: deeper ∧ level.slot key = slot ∧
      (hash.clear slots key).1 =
        moveUp key (update slots slot HashSlot.zero) level deeper := by
  obtain ⟨-, passedSlots, later, path_eq, passed⟩ :=
    ProbeTable.seek_eq_some_iff.mp (placed slot inside key holds)
  rw [table_path, map_eq_append_iff] at path_eq
  obtain ⟨before, rest, levels_eq, rfl, rest_eq⟩ := path_eq
  obtain ⟨level, deeper, rfl, rfl, rfl⟩ := map_eq_cons_iff.mp rest_eq
  refine ⟨before, level, deeper, levels_eq, rfl, ?_⟩
  have refused : ∀ prior ∈ before, HashSlot.key (slots (prior.slot key)) ≠ [] ∧
      HashSlot.key (slots (prior.slot key)) ≠ key := by
    intro prior earlier_mem
    exact not_or.mp (passed _ (mem_map_of_mem earlier_mem))
  have same : HashSlot.key (slots (level.slot key)) = key := holds.1
  have used : key ≠ [] := holds.2
  rw [clear, if_pos ready.initDone, levels_eq, clearIn_of_passed refused]
  simp [clearIn, same, used]

/-- Moving up from an occupied slot leaves its last value in two slots. -/
theorem moveUp_duplicates {cur next : HashLevel}
    (distinct : ((cur :: next :: deeper).map fun level => level.slot key).Nodup)
    (used : HashSlot.key (slots (next.slot key)) ≠ []) :
    ∃ upper ∈ cur :: next :: deeper, ∃ lower ∈ cur :: next :: deeper,
      upper.slot key ≠ lower.slot key ∧
      HashSlot.key (moveUp key slots cur (next :: deeper) (upper.slot key)) ≠ [] ∧
      HashSlot.key (moveUp key slots cur (next :: deeper) (upper.slot key)) =
        HashSlot.key (moveUp key slots cur (next :: deeper) (lower.slot key)) := by
  induction deeper generalizing slots cur next with
  | nil =>
    have ne : cur.slot key ≠ next.slot key := by simpa using distinct
    refine ⟨cur, by simp, next, by simp, ne, ?_⟩
    simp [moveUp, used, update_of_ne (Ne.symm ne)]
  | cons third deeper ih =>
    have ne : cur.slot key ≠ next.slot key := by
      simp only [map_cons, nodup_cons, mem_cons, not_or] at distinct
      exact distinct.1.1
    have moved_eq : moveUp key slots cur (next :: third :: deeper) =
        moveUp key (update slots (cur.slot key) (slots (next.slot key))) next
          (third :: deeper) := by
      rw [moveUp, if_neg used]
    rw [moved_eq]
    by_cases vacant : HashSlot.key (update slots (cur.slot key)
        (slots (next.slot key)) (third.slot key)) = []
    · refine ⟨cur, by simp, next, by simp, ne, ?_⟩
      simp [moveUp, vacant, used, update_of_ne (Ne.symm ne)]
    · obtain ⟨upper, upper_mem, lower, lower_mem, apart, stored, same⟩ :=
        ih (nodup_cons.mp distinct).2 vacant
      exact ⟨upper, mem_cons_of_mem _ upper_mem, lower, mem_cons_of_mem _ lower_mem,
        apart, stored, same⟩

theorem moveUp_of_vacant
    (vacant : ∀ next ∈ deeper.head?, HashSlot.key (slots (next.slot key)) = []) (cur : HashLevel)
    : moveUp key slots cur deeper = slots := by
  cases deeper with
  | nil => rfl
  | cons next deeper => simp [moveUp, vacant next rfl]

/-- No search for a stored key passes the slot. -/
def Ready.Unpassed (ready : hash.Ready Slot) (slots : Nat → Slot) (slot : Nat) : Prop :=
  ∀ other ∈ ready.table.slots, ∀ key, ready.table.Holds slots key other →
    ready.table.rank slot < ready.table.rank other → slot ∉ ready.table.path key

section

variable (ready : hash.Ready Slot)
include ready

theorem Ready.clearsKey_iff_unpassed {slot : Nat}
    (placed : ready.table.Placed slots) (inside : slot < slotNum hash.levels)
    (holds : ready.table.Holds slots key slot)
    (clear_eq : (hash.clear slots key).1 = update slots slot HashSlot.zero) :
    ClearsKey hash slots key ↔ ready.Unpassed slots slot := by
  have blank : ready.table.keyOf (HashSlot.zero : Slot) = ready.table.vacant := key_zero
  rw [ready.clearsKey_iff, clear_eq]
  constructor
  · rintro ⟨-, others, -⟩ other mem key' holds' lower passes
    have ne : key' ≠ key := by
      rintro rfl
      obtain rfl := placed.eq_of_holds mem inside holds' holds
      omega
    have kept := others key' ne
    rw [placed.lookup_release_of_passed blank mem holds' lower passes] at kept
    exact placed.lookup_eq_none_iff.mp kept.symm other mem holds'
  · intro unpassed
    have placed' := placed.release blank unpassed
    have lookup_eq := placed.lookup_release blank placed' inside holds
    refine ⟨?_, ?_, ready.distinct_of_placed placed'⟩
    · rw [lookup_eq, if_pos rfl]
    · intro other ne
      rw [lookup_eq, if_neg ne]

/-- A slot shared by no deeper key is one that no search passes. -/
theorem Ready.unshared_iff_unpassed {level : HashLevel}
    (placed : ready.table.Placed slots) (levels_eq : hash.levels = before ++ level :: deeper)
    (holds : ready.table.Holds slots key (level.slot key))
    (vacant : ∀ next ∈ deeper.head?, HashSlot.key (slots (next.slot key)) = []) :
    Unshared hash slots key ↔ ready.Unpassed slots (level.slot key) := by
  have level_eq : hash.levels[before.length]? = some level := by simp [levels_eq]
  have level_mem : level ∈ hash.levels := mem_of_getElem? level_eq
  have slot_mem : ∀ key, level.slot key ∈ ready.table.path key :=
    fun key => mem_map_of_mem level_mem
  have rank_eq : ∀ key, ready.table.rank (level.slot key) = before.length :=
    fun key => ready.table.rank_path key _ _ (by rw [table_path, getElem?_map, level_eq]; rfl)
  constructor
  · intro unshared other mem key' holds' lower passes
    obtain ⟨-, unshared⟩ := unshared before.length level level_eq holds.1 holds.2
    have shares := ProbeTable.getElem?_rank passes
    rw [rank_eq, table_path, getElem?_map, level_eq] at shares
    have other_eq := ProbeTable.getElem?_rank
      (ProbeTable.seek_mem_path (placed other mem key' holds'))
    rw [table_path, getElem?_map, Option.map_eq_some_iff] at other_eq
    obtain ⟨lowerLevel, lowerLevel_eq, rfl⟩ := other_eq
    have bounds := ready.slot_bounds (mem_of_getElem? lowerLevel_eq) key'
    have same : HashSlot.key (slots (lowerLevel.slot key')) = key' := holds'.1
    refine unshared _ lowerLevel (rank_eq key ▸ lower) lowerLevel_eq _ bounds.1 bounds.2 ?_ ?_
    · rw [same]
      exact holds'.2
    · rw [same]
      exact Option.some.inj shares
  · intro unpassed index level' level'_eq holds' ne
    have at_level : level'.slot key = level.slot key :=
      placed.eq_of_holds
        (ready.table.path_subset key _ (mem_map_of_mem (mem_of_getElem? level'_eq)))
        (ready.table.path_subset key _ (slot_mem key)) ⟨holds', ne⟩ holds
    obtain rfl : index = before.length := by
      rw [← rank_eq key, ← at_level]
      exact (ready.table.rank_path key _ _ (by rw [table_path, getElem?_map, level'_eq]; rfl)).symm
    obtain rfl : level = level' := Option.some.inj (level_eq.symm.trans level'_eq)
    constructor
    · intro next next_eq
      apply vacant
      simpa [levels_eq, getElem?_append_right, head?_eq_getElem?] using next_eq
    · intro index' deeperLevel lower deeper_eq slot bound bound' used shares
      have inside : slot < slotNum hash.levels := by
        have area := ready.consecutive.bounds deeper_eq
        omega
      have rank_slot : ready.table.rank slot = index' :=
        ready.consecutive.levelOf_eq deeper_eq bound bound'
      refine unpassed slot inside _ ⟨rfl, used⟩ ?_ ?_
      · rw [rank_eq, rank_slot]
        exact lower
      · rw [← shares]
        exact slot_mem _

theorem Ready.not_distinct_moveUp {level next : HashLevel}
    (levels_eq : hash.levels = before ++ level :: next :: deeper)
    (used : HashSlot.key (slots (next.slot key)) ≠ []) :
    ¬ Distinct hash (moveUp key (update slots (level.slot key) HashSlot.zero) level
      (next :: deeper)) := by
  intro distinct
  have path_nodup := ready.table.nodup_path key
  rw [table_path, levels_eq, map_append] at path_nodup
  have nodup := path_nodup.of_append_right
  have ne : level.slot key ≠ next.slot key := by
    simp only [map_cons, nodup_cons, mem_cons, not_or] at nodup
    exact nodup.1.1
  have occupied' : HashSlot.key (update slots (level.slot key) HashSlot.zero
      (next.slot key)) ≠ [] := by
    rw [update_of_ne (Ne.symm ne)]
    exact used
  have inside : ∀ lower ∈ level :: next :: deeper, lower.slot key < slotNum hash.levels := by
    intro lower lower_mem
    apply ready.table.path_subset key
    apply mem_map_of_mem
    rw [levels_eq]
    exact mem_append_right _ lower_mem
  obtain ⟨upper, upper_mem, lower, lower_mem, apart, stored, same⟩ :=
    moveUp_duplicates nodup occupied'
  exact apart (distinct _ (inside upper upper_mem) _ (inside lower lower_mem) stored same)

/-- In a placed table, `clear` is right exactly for the unshared keys. -/
theorem Ready.clearsKey_iff_unshared (placed : ready.table.Placed slots) (key : List UInt8) :
    (ClearsKey hash slots key ↔ Unshared hash slots key) ∧
      (Unshared hash slots key → ready.table.Placed (hash.clear slots key).1) := by
  cases found : ready.table.lookup slots key with
  | none =>
    have clear_eq := ready.clear_of_missing found
    have unshared : Unshared hash slots key := by
      intro index level level_eq same ne
      have inside := ready.table.path_subset key _ (mem_map_of_mem (mem_of_getElem? level_eq))
      exact absurd ⟨same, ne⟩ (placed.lookup_eq_none_iff.mp found _ inside)
    rw [ready.clearsKey_iff, clear_eq]
    exact ⟨⟨fun _ => unshared, fun _ => ⟨found, fun _ _ => rfl,
      ready.distinct_of_placed placed⟩⟩, fun _ => placed⟩
  | some val =>
    obtain ⟨slot, inside, holds, -⟩ := placed.lookup_eq_some_iff.mp found
    obtain ⟨before, level, deeper, levels_eq, rfl, clear_eq⟩ :=
      ready.clear_of_holds placed inside holds
    by_cases vacant : ∀ next ∈ deeper.head?, HashSlot.key (slots (next.slot key)) = []
    · have vacant' : ∀ next ∈ deeper.head?, HashSlot.key (update slots (level.slot key)
          HashSlot.zero (next.slot key)) = [] := by
        intro next next_mem
        by_cases same : next.slot key = level.slot key
        · rw [same, update_self, key_zero]
        · rw [update_of_ne same]
          exact vacant next next_mem
      rw [moveUp_of_vacant vacant'] at clear_eq
      have unpassed_iff := ready.unshared_iff_unpassed placed levels_eq holds vacant
      rw [ready.clearsKey_iff_unpassed placed inside holds clear_eq, unpassed_iff, clear_eq]
      exact ⟨Iff.rfl, placed.release key_zero⟩
    · obtain ⟨next, next_mem, used⟩ := by simpa only [not_forall] using vacant
      obtain ⟨deeper, rfl⟩ : ∃ rest, deeper = next :: rest :=
        ⟨_, (eq_cons_of_mem_head? next_mem)⟩
      have shared : ¬ Unshared hash slots key := by
        intro unshared
        have level_eq : hash.levels[before.length]? = some level := by simp [levels_eq]
        obtain ⟨empty, -⟩ := unshared _ level level_eq holds.1 holds.2
        exact used (empty next (by simp [levels_eq]))
      refine ⟨⟨?_, fun unshared => absurd unshared shared⟩, fun unshared => absurd unshared shared⟩
      rintro ⟨-, -, apart⟩
      rw [clear_eq] at apart
      exact absurd apart (ready.not_distinct_moveUp levels_eq used)

end

inductive HashChange (Slot : Type)
  | insert (val : Slot)
  | clear (key : List UInt8)

def change (hash : MultiLevelHash) (slots : Nat → Slot) : HashChange Slot → Nat → Slot
  | .insert val => (hash.insert slots val).1
  | .clear key => (hash.clear slots key).1

/-- The condition holds of the key of a `clear`. -/
def HashChange.OnClear (condition : (Nat → Slot) → List UInt8 → Prop) (slots : Nat → Slot) :
    HashChange Slot → Prop
  | .insert _ => True
  | .clear key => condition slots key

/-- From zeroed memory and with at least one level, every `clear` of a run is right exactly when it
clears an unshared key each time. -/
theorem everyStep_clearsKey_iff {dataPos dataLen itemNum levelNum : Nat}
    (success : (new dataPos dataLen itemNum levelNum).init Slot = (0, hash))
    (positive : 0 < levelNum ∧ ∀ level ∈ hash.levels, 0 < level.itemNum) {slots : Nat → Slot}
    (zeroed : ∀ slot < slotNum hash.levels, slots slot = HashSlot.zero)
    (changes : List (HashChange Slot)) :
    EveryStep hash.change (fun slots => HashChange.OnClear (ClearsKey hash) slots) slots changes ↔
      EveryStep hash.change (fun slots => HashChange.OnClear (Unshared hash) slots) slots
        changes := by
  have ready := ready_of_init success positive.2
  apply everyStep_congr (fun slots => ready.table.Placed slots) (ready.placed_of_zero zeroed)
  · intro slots action placed unshared
    cases action with
    | insert val =>
      rw [change, ready.insert_eq]
      exact placed.insert val
    | clear key => exact (ready.clearsKey_iff_unshared placed key).2 unshared
  · intro slots action _ placed
    cases action with
    | insert val => exact Iff.rfl
    | clear key => exact (ready.clearsKey_iff_unshared placed key).1

/-- A key is cleared while the other one stands in another slot of its level. -/
theorem everyStep_clearsKey_twoLevels :
    EveryStep twoLevels.change (fun slots => HashChange.OnClear (ClearsKey twoLevels) slots)
      (fun _ => (⟨[], 0⟩ : KeyedCount)) [.insert ⟨[2], 10⟩, .insert ⟨[3], 11⟩, .clear [2]] := by
  have success : (new 1 48 2 2).init KeyedCount = (0, twoLevels) := rfl
  refine (everyStep_clearsKey_iff success (by decide) (fun _ _ => rfl) _).2 ?_
  simp only [everyStep_cons, HashChange.OnClear, everyStep_nil, true_and, and_true]
  intro index level level_eq stored _
  have first : index = 0 := by
    rcases index with _ | _ | index
    · rfl
    · obtain rfl : (⟨2, 1⟩ : HashLevel) = level := by simpa [twoLevels] using level_eq
      exact absurd stored (by decide)
    · simp [twoLevels] at level_eq
  subst first
  constructor
  · intro next next_eq
    obtain rfl : (⟨2, 1⟩ : HashLevel) = next := by simpa [twoLevels] using next_eq
    decide
  · intro index deeper later deeper_eq slot lower upper used
    obtain rfl : index = 1 := by
      have inside := (List.getElem?_eq_some_iff.mp deeper_eq).1
      simp only [twoLevels, length_cons, length_nil] at inside
      omega
    obtain rfl : (⟨2, 1⟩ : HashLevel) = deeper := by simpa [twoLevels] using deeper_eq
    obtain rfl : slot = 2 := by
      simp only at lower upper
      omega
    exact absurd rfl used

/-- Clearing the first of two keys that meet on level zero leaves the second one twice. -/
theorem not_everyStep_clearsKey :
    ¬ EveryStep twoLevels.change (fun slots => HashChange.OnClear (ClearsKey twoLevels) slots)
      (fun _ => (⟨[], 0⟩ : KeyedCount))
      [.insert ⟨[2], 10⟩, .insert ⟨[4], 11⟩, .clear [2]] := by
  intro every
  obtain ⟨-, -, distinct⟩ := every [.insert ⟨[2], 10⟩, .insert ⟨[4], 11⟩] (.clear [2])
    prefix_rfl
  have same := distinct 0 (by decide) 2 (by decide) (by decide) (by decide)
  omega

end MultiLevelHash
end McBrpc
