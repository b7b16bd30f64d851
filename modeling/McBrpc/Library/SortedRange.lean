import Mathlib.Data.List.Count
import Mathlib.Data.List.Destutter
import Mathlib.Data.List.Perm.Subperm
import Mathlib.Data.List.Sort

/-!
# Sorted ranges

`std::sort`, `std::unique` and `std::set_difference` over items that are ordered by a key.
-/

namespace SortedRange

open List

variable {α κ : Type*} [LinearOrder κ] (key : α → κ)

def Sorted (items : List α) : Prop := items.Pairwise fun left right => key left ≤ key right

def sort (items : List α) : List α := items.mergeSort fun left right => key left ≤ key right

/-- `std::unique` without the rest: of equal neighbours the first stays. -/
def unique [DecidableEq α] (items : List α) : List α := items.destutter (· ≠ ·)

def setDifference : List α → List α → List α
  | [], _ => []
  | left, [] => left
  | first :: left, second :: right =>
    if key first < key second then first :: setDifference left (second :: right)
    else if key second < key first then setDifference (first :: left) right
    else setDifference left right

theorem sort_perm (items : List α) : (sort key items).Perm items := mergeSort_perm _ _

theorem sort_sorted (items : List α) : Sorted key (sort key items) := by
  have pairwise : (sort key items).Pairwise fun left right => decide (key left ≤ key right) := by
    refine pairwise_mergeSort ?_ ?_ items
    · intro first second third
      simp only [decide_eq_true_eq]
      exact le_trans
    · intro first second
      simpa using le_total (key first) (key second)
  exact pairwise.imp of_decide_eq_true

variable {key}

theorem Sorted.head_le {first : α} {items : List α} (sorted : Sorted key (first :: items))
    {item : α} (mem : item ∈ first :: items) : key first ≤ key item := by
  rcases mem_cons.mp mem with rfl | later
  · exact le_rfl
  · exact (pairwise_cons.mp sorted).1 item later

section Unique

variable [DecidableEq α] {items : List α}

omit [LinearOrder κ] in
theorem mem_unique {item : α} : item ∈ unique items ↔ item ∈ items := by
  refine ⟨fun mem => (destutter_sublist _ _).subset mem, fun mem => ?_⟩
  cases items with
  | nil => exact mem
  | cons first items =>
    rw [unique, destutter_cons']
    induction items generalizing first with
    | nil => exact mem
    | cons second items ih =>
      rw [destutter'_cons]
      split
      · rcases mem_cons.mp mem with rfl | later
        · exact mem_cons_self
        · exact mem_cons_of_mem _ (ih second later)
      · next same =>
        obtain rfl : first = second := not_not.mp same
        refine ih first ?_
        simpa using mem

theorem unique_sorted (sorted : Sorted key items) : Sorted key (unique items) :=
  List.Pairwise.sublist (destutter_sublist _ _) sorted

theorem nodup_unique (sorted : Sorted key items)
    (identify : ∀ first ∈ items, ∀ second ∈ items, key first = key second → first = second) :
    (unique items).Nodup := by
  have nodup_of_chain : ∀ range : List α, Sorted key range → range ⊆ items →
      range.IsChain (· ≠ ·) → range.Nodup := by
    intro range
    induction range with
    | nil => exact fun _ _ _ => nodup_nil
    | cons first range ih =>
      intro range_sorted within chain
      refine nodup_cons.mpr ⟨?_, ih (pairwise_cons.mp range_sorted).2
        (fun _ later => within (mem_cons_of_mem _ later)) chain.tail⟩
      cases range with
      | nil => exact not_mem_nil
      | cons second range =>
        intro again
        have below := (pairwise_cons.mp range_sorted).1 second mem_cons_self
        have above := Sorted.head_le (pairwise_cons.mp range_sorted).2 again
        refine (isChain_cons_cons.mp chain).1 ?_
        exact identify first (within mem_cons_self) second
          (within (mem_cons_of_mem _ mem_cons_self)) (le_antisymm below above)
  exact nodup_of_chain _ (unique_sorted sorted) (destutter_sublist _ _).subset
    (isChain_destutter _ _)

end Unique

variable {left right : List α}

theorem Sorted.not_mem_of_lt {item first : α} (sorted : Sorted key (first :: right))
    (less : key item < key first) : item ∉ first :: right :=
  fun mem => less.not_ge (sorted.head_le mem)

theorem setDifference_sublist : (setDifference key left right).Sublist left := by
  fun_induction setDifference key left right with
  | case1 | case2 => exact List.Sublist.refl _
  | case3 first left second right less ih => exact ih.cons_cons first
  | case4 first left second right not_less greater ih => exact ih
  | case5 first left second right not_less not_greater ih => exact ih.cons first

theorem mem_setDifference (left_sorted : Sorted key left) (right_sorted : Sorted key right)
    (nodup : left.Nodup)
    (identify : ∀ first ∈ left, ∀ second ∈ right, key first = key second → first = second)
    {item : α} : item ∈ setDifference key left right ↔ item ∈ left ∧ item ∉ right := by
  fun_induction setDifference key left right with
  | case1 | case2 => simp
  | case3 first left second right less ih =>
    have rest := ih (pairwise_cons.mp left_sorted).2 right_sorted
      (nodup_cons.mp nodup).2
      fun other mem => identify other (mem_cons_of_mem _ mem)
    have apart : first ∉ second :: right := right_sorted.not_mem_of_lt less
    rw [mem_cons, rest, mem_cons (b := first)]
    constructor
    · rintro (rfl | ⟨later, missing⟩)
      · exact ⟨.inl rfl, apart⟩
      · exact ⟨.inr later, missing⟩
    · rintro ⟨rfl | later, missing⟩
      · exact .inl rfl
      · exact .inr ⟨later, missing⟩
  | case4 first left second right not_less greater ih =>
    have rest := ih left_sorted (pairwise_cons.mp right_sorted).2 nodup
      fun other mem next next_mem =>
        identify other mem next (mem_cons_of_mem _ next_mem)
    have apart : second ∉ first :: left := left_sorted.not_mem_of_lt greater
    rw [rest, mem_cons (b := second)]
    refine and_congr_right fun item_mem => not_congr ?_
    refine (or_iff_right ?_).symm
    rintro rfl
    exact apart item_mem
  | case5 first left second right not_less not_greater ih =>
    obtain ⟨fresh, nodup_rest⟩ := nodup_cons.mp nodup
    have rest := ih (pairwise_cons.mp left_sorted).2 (pairwise_cons.mp right_sorted).2
      nodup_rest fun other mem next next_mem =>
        identify other (mem_cons_of_mem _ mem) next (mem_cons_of_mem _ next_mem)
    obtain rfl := identify first mem_cons_self second mem_cons_self
      (le_antisymm (le_of_not_gt not_greater) (le_of_not_gt not_less))
    rw [rest, mem_cons, mem_cons, not_or]
    constructor
    · rintro ⟨later, missing⟩
      exact ⟨.inr later, fun same => fresh (same ▸ later), missing⟩
    · rintro ⟨same | later, other, missing⟩
      · exact absurd same other
      · exact ⟨later, missing⟩

end SortedRange
