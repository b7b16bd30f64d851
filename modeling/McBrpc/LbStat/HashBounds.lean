import McBrpc.LbStat.HashLookup

/-!
# The memory that the multi-level hash touches

`Find`, `Insert` and `Clear` compute a slot on some of the levels: a remainder by the number of
slots of the level and an access at the result.  `Init` does not check that every level has a slot.
-/

namespace McBrpc

open List HashSlot Function Nat
namespace MultiLevelHash

variable {Slot : Type} [HashSlot Slot]

/-- The levels on which `Find` and `Insert` compute the slot of a key. -/
def probed (slots : Nat → Slot) (key : List UInt8) : List HashLevel → List HashLevel
  | [] => []
  | level :: levels =>
    let held := HashSlot.key (slots (level.slot key))
    level :: if held = [] ∨ held = key then [] else probed slots key levels

/-- The levels on which the second loop of `Clear` computes a slot. -/
def movedUp (key : List UInt8) (slots : Nat → Slot) : HashLevel → List HashLevel → List HashLevel
  | _, [] => []
  | cur, next :: deeper =>
    cur :: next ::
      if HashSlot.key (slots (next.slot key)) = [] then []
      else movedUp key (update slots (cur.slot key) (slots (next.slot key))) next deeper

/-- The levels on which `Clear` computes a slot, from a level on. -/
def cleared (slots : Nat → Slot) (key : List UInt8) : List HashLevel → List HashLevel
  | [] => []
  | level :: deeper =>
    let held := HashSlot.key (slots (level.slot key))
    level ::
      if held = [] then []
      else if held = key then
        movedUp key (update slots (level.slot key) zero) level deeper
      else cleared slots key deeper

/-- The levels on which `Clear` computes a slot.  Without levels the bound `_level_num - 1` of its
second loop wraps around, and the loop starts with the unset table of level 0. -/
def clearTouched (hash : MultiLevelHash) (slots : Nat → Slot) (key : List UInt8) : List HashLevel :=
  if hash.levels = [] then [⟨0, 0⟩] else cleared slots key hash.levels

variable (Slot) in
/-- The remainder is defined, and the slot lies in the data area. -/
structure Harmless (hash : MultiLevelHash) (key : List UInt8) (level : HashLevel) : Prop where
  divisor : 0 < level.itemNum
  inside : (level.slot key + 1) * size Slot ≤ hash.dataLen

variable (Slot) in
/-- Every level has slots, the levels are disjoint parts of the data area, and no operation divides
by zero or touches other memory. -/
structure Bounded (hash : MultiLevelHash) : Prop where
  positive : ∀ level ∈ hash.levels, 0 < level.itemNum
  apart : hash.levels.Pairwise fun level deeper =>
    level.hashTable + level.itemNum ≤ deeper.hashTable
  inside : ∀ level ∈ hash.levels,
    (level.hashTable + level.itemNum) * size Slot ≤ hash.dataLen
  probed : ∀ (slots : Nat → Slot) key, ∀ level ∈ probed slots key hash.levels,
    hash.Harmless Slot key level
  clearTouched : ∀ (slots : Nat → Slot) key, ∀ level ∈ hash.clearTouched slots key,
    hash.Harmless Slot key level

theorem probed_subset (slots : Nat → Slot) (key : List UInt8) (levels : List HashLevel) :
    probed slots key levels ⊆ levels := by
  induction levels with
  | nil => exact List.Subset.refl _
  | cons level levels ih =>
    refine cons_subset_cons _ ?_
    split
    · exact nil_subset _
    · exact ih

theorem movedUp_subset (key : List UInt8) (slots : Nat → Slot) (cur : HashLevel)
    (deeper : List HashLevel) : movedUp key slots cur deeper ⊆ cur :: deeper := by
  induction deeper generalizing slots cur with
  | nil => exact nil_subset _
  | cons next deeper ih =>
    refine cons_subset_cons _ (cons_subset.mpr ⟨mem_cons_self, ?_⟩)
    split
    · exact nil_subset _
    · exact ih _ next

theorem cleared_subset (slots : Nat → Slot) (key : List UInt8) (levels : List HashLevel) :
    cleared slots key levels ⊆ levels := by
  induction levels with
  | nil => exact List.Subset.refl _
  | cons level levels ih =>
    refine cons_subset.mpr ⟨mem_cons_self, ?_⟩
    split
    · exact nil_subset _
    · split
      · exact movedUp_subset key _ level levels
      · exact List.Subset.trans ih (subset_cons_self _ _)

theorem Consecutive.bounds_of_mem {pos : Nat} {levels : List HashLevel} {level : HashLevel}
    (consecutive : Consecutive pos levels) (level_mem : level ∈ levels) :
    pos ≤ level.hashTable ∧ level.hashTable + level.itemNum ≤ pos + slotNum levels := by
  obtain ⟨index, found⟩ := mem_iff_getElem?.mp level_mem
  exact consecutive.bounds found

theorem Consecutive.pairwise {pos : Nat} {levels : List HashLevel}
    (consecutive : Consecutive pos levels) :
    levels.Pairwise fun level deeper => level.hashTable + level.itemNum ≤ deeper.hashTable := by
  induction levels generalizing pos with
  | nil => exact List.Pairwise.nil
  | cons level levels ih =>
    obtain ⟨rfl, rest⟩ := consecutive
    exact pairwise_cons.mpr ⟨fun deeper mem => (rest.bounds_of_mem mem).1, ih rest⟩

theorem positive_layLevels_iff (count pos curItemNum : Nat) :
    (∀ level ∈ layLevels (count + 1) pos curItemNum, 0 < level.itemNum) ↔
      2 ^ count ≤ curItemNum := by
  induction count generalizing pos curItemNum with
  | zero =>
    simp only [layLevels, mem_singleton, forall_eq]
    exact succ_le_iff.symm
  | succ count ih =>
    have positive := Nat.two_pow_pos count
    rw [layLevels, forall_mem_cons, ih, pow_succ]
    simp only
    omega

theorem Ready.bounded {hash : MultiLevelHash} (ready : hash.Ready Slot)
    (leveled : hash.levels ≠ []) : hash.Bounded Slot := by
  have inside (level : HashLevel) (level_mem : level ∈ hash.levels) :
      (level.hashTable + level.itemNum) * size Slot ≤ hash.dataLen := by
    refine (mul_le_mul_right _ ?_).trans ready.fits
    have bounds := ready.consecutive.bounds_of_mem level_mem
    omega
  have harmless (key : List UInt8) (level : HashLevel) (level_mem : level ∈ hash.levels) :
      hash.Harmless Slot key level := by
    refine ⟨ready.positive level level_mem, (mul_le_mul_right _ ?_).trans (inside level level_mem)⟩
    exact (ready.slot_bounds level_mem key).2
  refine ⟨ready.positive, ready.consecutive.pairwise, inside, ?_, ?_⟩
  · exact fun slots key level mem => harmless key level (probed_subset slots key _ mem)
  · intro slots key level mem
    rw [clearTouched, if_neg leveled] at mem
    exact harmless key level (cleared_subset slots key _ mem)

/-- After a successful `Init` all levels and operations are sound exactly when there is a level and
the first one has a slot for the last one. -/
theorem bounded_init_iff {created hash : MultiLevelHash} (success : created.init Slot = (0, hash)) :
    hash.Bounded Slot ↔ 0 < created.levelNum ∧ 2 ^ (created.levelNum - 1) ≤ created.itemNum := by
  have levels_eq : hash.levels = layLevels created.levelNum 0 created.itemNum := by
    simp only [init] at success
    split at success
    · simp at success
    · split at success
      · simp at success
      · rw [← (Prod.mk.inj success).2]
  cases count_eq : created.levelNum with
  | zero =>
    -- Only `Clear` fails here.
    have empty : hash.levels = [] := by
      rw [levels_eq, count_eq]
      rfl
    refine iff_of_false (fun bounded => ?_) (fun both => absurd both.1 (by omega))
    have unset := bounded.clearTouched (fun _ => zero) [] ⟨0, 0⟩ (by
      rw [MultiLevelHash.clearTouched, if_pos empty]
      exact mem_singleton_self _)
    exact absurd unset.divisor (lt_irrefl 0)
  | succ count =>
    have positive_iff : (∀ level ∈ hash.levels, 0 < level.itemNum) ↔
        2 ^ count ≤ created.itemNum := by
      rw [levels_eq, count_eq]
      exact positive_layLevels_iff count 0 created.itemNum
    rw [Nat.add_sub_cancel, ← positive_iff]
    refine ⟨fun bounded => ⟨Nat.succ_pos _, bounded.positive⟩, fun both => ?_⟩
    refine (ready_of_init success both.2).bounded ?_
    rw [levels_eq, count_eq, layLevels]
    exact cons_ne_nil _ _

/-- Slots that hold a key of one byte. -/
instance byteSlot : HashSlot (Option UInt8) where
  key slot := slot.toList
  zero := none
  key_zero := rfl
  size := 4

theorem bounded_init_small : ((new 4096 28 4 3).init (Option UInt8)).1 = 0 ∧
      ((new 4096 28 4 3).init (Option UInt8)).2.Bounded (Option UInt8) :=
  ⟨rfl, (@bounded_init_iff (Option UInt8) _ (new 4096 28 4 3) _ rfl).mpr (by decide)⟩

/-- Four levels over one slot: `Find` computes a remainder by zero on the second level when the
slot is taken. -/
theorem not_bounded_init_single : ((new 4096 4 1 4).init (Option UInt8)).1 = 0 ∧
      ⟨1, 0⟩ ∈ probed (fun _ => some (98 : UInt8)) [97]
        ((new 4096 4 1 4).init (Option UInt8)).2.levels := by
  decide

end MultiLevelHash
end McBrpc
