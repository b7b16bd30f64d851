import Mathlib.Algebra.BigOperators.Group.Finset.Piecewise

/-!
# Sums of left subtrees

In the implicit binary tree the children of `index` are `2 * index + 1` and `2 * index + 2`.  A
list keeps, for each position, the sum of the values in its left subtree: a tally of everything that
has been added at each position.
-/

namespace LeftSums

open List Finset Function

/-- The position is in the subtree of a root. -/
def below (root index : Nat) : Bool :=
  if index = root then true
  else if index = 0 then false
  else below root ((index - 1) / 2)
termination_by index

theorem root_le_of_below {root index : Nat} (is_below : below root index) : root ≤ index := by
  fun_induction below root index with
  | case1 => exact le_rfl
  | case2 => simp at is_below
  | case3 index not_root not_zero ih => exact (ih is_below).trans (by omega)

theorem below_of_pos {root index : Nat} (ne : index ≠ root) (positive : 0 < index) :
    below root index = below root ((index - 1) / 2) := by
  rw [below, if_neg ne, if_neg (by omega)]

variable {M : Type*} [AddCommMonoid M] {lefts : List M} {total diff : M} {values : Nat → M}
  {length index root : Nat}

/-- The sum of the left subtree of a root among the first positions. -/
def leftSum (values : Nat → M) (length root : Nat) : M :=
  ∑ index ∈ Finset.range length, if below (2 * root + 1) index then values index else 0

theorem sum_update (values : Nat → M) (diff : M) (counts : Nat → Bool) (inside : index < length) :
    (∑ place ∈ Finset.range length,
        if counts place then Function.update values index (values index + diff) place
        else 0) =
      (∑ place ∈ Finset.range length, if counts place then values place else 0) +
        if counts index then diff else 0 := by
  have summand_eq : ∀ place ∈ Finset.range length,
      (if counts place then Function.update values index (values index + diff) place else 0) =
      (if counts place then values place else 0) +
        if index = place then (if counts index then diff else 0) else 0 := by
    intro place _
    by_cases here : index = place
    · subst here
      rw [update_self, if_pos rfl]
      split
      · rfl
      · rw [add_zero]
    · rw [update_of_ne (Ne.symm here), if_neg here, add_zero]
  rw [Finset.sum_congr rfl summand_eq, sum_add_distrib, sum_ite_eq,
    if_pos (Finset.mem_range.mpr inside)]

/-- The list has the sums of the left subtrees, and the total is the sum of all values. -/
structure Tallies (lefts : List M) (total : M) (values : Nat → M) : Prop where
  left_eq : ∀ root < lefts.length, lefts[root]? = some (leftSum values lefts.length root)
  total_eq : total = ∑ index ∈ Finset.range lefts.length, values index

variable (tallies : Tallies lefts total values)
include tallies

theorem Tallies.congr {others : Nat → M}
    (same : ∀ index < lefts.length, values index = others index) : Tallies lefts total others where
  left_eq root inside := by
    rw [tallies.left_eq root inside, leftSum, leftSum]
    refine congrArg some (Finset.sum_congr rfl fun index index_mem => ?_)
    rw [same index (Finset.mem_range.mp index_mem)]
  total_eq := tallies.total_eq.trans
    (Finset.sum_congr rfl fun index index_mem => same index (Finset.mem_range.mp index_mem))

theorem Tallies.add (inside : index < lefts.length) {changed : List M}
    (changed_eq : ∀ root, changed[root]? =
      lefts[root]?.map (· + if below (2 * root + 1) index then diff else 0)) :
    Tallies changed (total + diff) (Function.update values index (values index + diff)) := by
  have length_eq : changed.length = lefts.length := by
    refine Nat.le_antisymm ?_ ?_
    · rw [← List.getElem?_eq_none_iff, changed_eq, getElem?_eq_none le_rfl]
      rfl
    · rw [← List.getElem?_eq_none_iff, ← Option.map_eq_none_iff, ← changed_eq,
        getElem?_eq_none le_rfl]
  refine ⟨fun root root_lt => ?_, ?_⟩
  · rw [changed_eq, tallies.left_eq root (length_eq ▸ root_lt), length_eq, leftSum, leftSum,
      sum_update values diff _ inside]
    rfl
  · have sums := sum_update values diff (fun _ => true) inside
    simp only [if_true] at sums
    rw [length_eq, sums, tallies.total_eq]

theorem Tallies.push (none_yet : values lefts.length = 0) :
    Tallies (lefts ++ [0]) total values := by
  have leftSum_succ : ∀ root,
      leftSum values (lefts.length + 1) root = leftSum values lefts.length root := by
    intro root
    rw [leftSum, Finset.sum_range_succ, none_yet, ite_self, add_zero, leftSum]
  refine ⟨fun root root_lt => ?_, ?_⟩
  · rw [length_append, length_singleton] at root_lt ⊢
    rw [leftSum_succ, getElem?_append]
    split
    · next inside => exact tallies.left_eq root inside
    · next beyond =>
      have nothing_below : leftSum values lefts.length root = 0 := by
        refine sum_eq_zero fun index index_mem => if_neg fun is_below => ?_
        have := root_le_of_below is_below
        have := Finset.mem_range.mp index_mem
        omega
      rw [nothing_below, show root - lefts.length = 0 by omega]
      rfl
  · rw [length_append, length_singleton, Finset.sum_range_succ, none_yet, add_zero,
      tallies.total_eq]

theorem Tallies.pop
    (nothing_left : values (lefts.length - 1) = 0) : Tallies lefts.dropLast total values := by
  rcases lefts.eq_nil_or_concat with rfl | ⟨before, last, rfl⟩
  · exact tallies
  · rw [concat_eq_append] at tallies nothing_left ⊢
    rw [length_append, length_singleton, Nat.add_sub_cancel] at nothing_left
    rw [dropLast_concat]
    refine ⟨fun root root_lt => ?_, ?_⟩
    · have left_eq := tallies.left_eq root (by rw [length_append]; omega)
      rw [getElem?_append_left root_lt, length_append, length_singleton, leftSum,
        Finset.sum_range_succ, nothing_left, ite_self, add_zero] at left_eq
      exact left_eq
    · rw [tallies.total_eq, length_append, length_singleton, Finset.sum_range_succ,
        nothing_left, add_zero]

end LeftSums
