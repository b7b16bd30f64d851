import Mathlib.Algebra.BigOperators.Group.List.Basic
import Mathlib.Data.List.Nodup
import Mathlib.Data.List.Perm.Subperm
import Mathlib.Data.Nat.ModEq

/-!
# Strides on a circle

A circle is made of parts, each with a name that fills a number of places.  Strides that have no
common divisor with the circumference visit every place once in as many strides as there are
places, so that they meet each name as often as its part is long.
-/

variable {α β : Type*}

/-- The places of the parts, one after the other. -/
def circle (name : β → α) (size : β → Nat) (parts : List β) : List α :=
  parts.flatMap fun part => List.replicate (size part) (name part)

section Parts

variable {name : β → α} {size : β → Nat}

theorem length_circle (name : β → α) (size : β → Nat) (parts : List β) :
    (circle name size parts).length = (parts.map size).sum := by
  simp [circle, List.length_flatMap]

theorem getElem?_circle {parts : List β} {position : Nat} {part : β}
    (here : parts[position]? = some part) {place : Nat} (within : place < size part) :
    (circle name size parts)[((parts.take position).map size).sum + place]? =
      some (name part) := by
  induction parts generalizing position with
  | nil => simp at here
  | cons first parts ih =>
    rw [circle, List.flatMap_cons]
    cases position with
    | zero =>
      obtain rfl : first = part := by simpa using here
      rw [List.take_zero, List.map_nil, List.sum_nil, Nat.zero_add,
        List.getElem?_append_left (by simpa using within), List.getElem?_replicate,
        if_pos within]
    | succ position =>
      rw [List.take_succ_cons, List.map_cons, List.sum_cons,
        List.getElem?_append_right (by simp; omega), List.length_replicate]
      have here : parts[position]? = some part := by simpa using here
      rw [Nat.add_assoc, Nat.add_sub_cancel_left]
      exact ih here

theorem count_circle [DecidableEq α] {parts : List β} (apart : (parts.map name).Nodup)
    {part : β} (part_mem : part ∈ parts) :
    (circle name size parts).count (name part) = size part := by
  induction parts with
  | nil => exact absurd part_mem List.not_mem_nil
  | cons first parts ih =>
    obtain ⟨first_fresh, rest_distinct⟩ := List.nodup_cons.mp apart
    rw [circle, List.flatMap_cons, List.count_append, List.count_replicate]
    rcases List.mem_cons.mp part_mem with rfl | later
    · have absent : name part ∉ circle name size parts := by
        simp only [circle, List.mem_flatMap, List.mem_replicate, not_exists, not_and]
        rintro other mem - same
        exact first_fresh (same ▸ List.mem_map_of_mem mem)
      rw [if_pos (beq_self_eq_true _), ← circle, List.count_eq_zero_of_not_mem absent, Nat.add_zero]
    · have ne : name first ≠ name part := fun same =>
        first_fresh (same ▸ List.mem_map_of_mem later)
      rw [if_neg (by simpa using ne), Nat.zero_add]
      exact ih rest_distinct later

end Parts

theorem strides_perm {length stride : Nat} (coprime : stride.Coprime length) (start : Nat) :
    ((List.range length).map fun count => (start + count * stride) % length).Perm
      (List.range length) := by
  have apart :
      ((List.range length).map fun count => (start + count * stride) % length).Nodup := by
    refine List.Nodup.map_on ?_ List.nodup_range
    intro left left_mem right right_mem same
    have congruent := Nat.ModEq.add_left_cancel' start same
    have congruent : left ≡ right [MOD length] :=
      Nat.ModEq.cancel_right_of_coprime coprime.symm congruent
    exact congruent.eq_of_lt_of_lt (List.mem_range.mp left_mem) (List.mem_range.mp right_mem)
  have within : ((List.range length).map fun count => (start + count * stride) % length) ⊆
      List.range length := by
    intro place mem
    obtain ⟨count, count_mem, rfl⟩ := List.mem_map.mp mem
    have count_lt := List.mem_range.mp count_mem
    exact List.mem_range.mpr (Nat.mod_lt _ (by omega))
  refine (List.subperm_of_subset apart within).perm_of_length_le ?_
  rw [List.length_map]

theorem visits_perm {places : List α} {stride : Nat} (coprime : stride.Coprime places.length)
    (start : Nat) :
    ((List.range places.length).map fun count =>
      places[(start + count * stride) % places.length]?).Perm (places.map some) := by
  have visited := (strides_perm coprime start).map (places[·]?)
  rw [List.map_map] at visited
  have all : (List.range places.length).map (places[·]?) = places.map some := by
    refine List.ext_getElem (by simp) ?_
    intro place inside _
    have inside : place < places.length := by simpa using inside
    simp [inside]
  exact all ▸ visited
