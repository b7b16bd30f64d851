import Mathlib.Data.List.Induction
import McBrpc.Library.ProbeTable

/-!
# Refilling a probed table

A table is refilled by inserting chosen values of another one, slot by slot in the order of the
ranks, into an empty memory.  Every key rises or stays on its rank, so that every chosen value
finds a slot: the one it had is still free or its own.
-/

namespace ProbeTable

open List

variable {K A V : Type*} [DecidableEq K] {table : ProbeTable K A V} {memory old : A → V}
  {choose : V → Option V} {done : List A}

/-- A table refilled from the done slots: it is placed, no key has sunk below its old slot, and
the chosen values are found. -/
structure Refilled (table : ProbeTable K A V) (choose : V → Option V) (old : A → V)
    (done : List A) (memory : A → V) : Prop where
  placed : table.Placed memory
  risen : ∀ slot ∈ table.slots, ∀ key, table.Holds memory key slot →
    ∃ source ∈ done, table.Holds old key source ∧ table.rank slot ≤ table.rank source
  chosen : ∀ source ∈ done, ∀ key, table.Holds old key source →
    table.lookup memory key = choose (old source)

theorem Refilled.lookup_eq_none (refilled : Refilled table choose old done memory) {key : K}
    (absent : ∀ source ∈ done, ¬ table.Holds old key source) : table.lookup memory key = none := by
  rw [refilled.placed.lookup_eq_none_iff]
  intro slot mem holds
  obtain ⟨source, source_mem, holds', -⟩ := refilled.risen slot mem key holds
  exact absent source source_mem holds'

variable {slot : A}

section

variable (refilled : Refilled table choose old done memory)
include refilled

theorem Refilled.seek_eq_some
    (placed : table.Placed old) (done_mem : ∀ source ∈ done, source ∈ table.slots) {key : K}
    (mem : slot ∈ table.slots) (holds : table.Holds old key slot)
    (ordered : ∀ source ∈ done, table.rank source ≤ table.rank slot) :
    ∃ found, table.seek memory key = some found ∧ table.rank found ≤ table.rank slot := by
  have path_mem := seek_mem_path (placed slot mem key holds)
  refine seek_le_of_stops path_mem ?_
  by_contra refused
  rw [Stops, not_or] at refused
  have held : table.Holds memory (table.keyOf (memory slot)) slot := ⟨rfl, refused.1⟩
  obtain ⟨source, source_mem, source_holds, risen⟩ := refilled.risen slot mem _ held
  have same : slot = source :=
    eq_of_rank_eq (seek_mem_path (refilled.placed slot mem _ held))
      (seek_mem_path (placed source (done_mem source source_mem) _ source_holds))
      (risen.antisymm (ordered source source_mem))
  subst same
  exact refused.2 (source_holds.1.symm.trans holds.1)

theorem Refilled.pass
    (kept : ∀ key, table.Holds old key slot → table.lookup memory key = choose (old slot)) :
    Refilled table choose old (done ++ [slot]) memory := by
  refine ⟨refilled.placed, ?_, ?_⟩
  · intro place place_mem key holds
    obtain ⟨source, mem, rest⟩ := refilled.risen place place_mem key holds
    exact ⟨source, mem_append_left _ mem, rest⟩
  · intro source mem key holds
    rcases mem_append.mp mem with mem | mem
    · exact refilled.chosen source mem key holds
    · obtain rfl := mem_singleton.mp mem
      exact kept key holds

theorem Refilled.drop (placed : table.Placed old) (done_mem : ∀ source ∈ done, source ∈ table.slots)
    (slot_mem : slot ∈ table.slots) (fresh : slot ∉ done) (unchosen : choose (old slot) = none) :
    Refilled table choose old (done ++ [slot]) memory := by
  refine refilled.pass fun key holds => ?_
  rw [unchosen]
  apply refilled.lookup_eq_none
  intro other mem holds'
  have same := placed.eq_of_holds (done_mem other mem) slot_mem holds' holds
  exact fresh (same ▸ mem)

theorem Refilled.lookup_eq
    (placed : table.Placed old) (all : ∀ slot, slot ∈ done ↔ slot ∈ table.slots) (key : K) :
    table.lookup memory key = (table.lookup old key).bind choose := by
  cases found : table.lookup old key with
  | none =>
    apply refilled.lookup_eq_none
    intro source mem
    exact placed.lookup_eq_none_iff.mp found source ((all source).mp mem)
  | some value =>
    obtain ⟨source, mem, holds, rfl⟩ := placed.lookup_eq_some_iff.mp found
    exact refilled.chosen source ((all source).mpr mem) key holds

end

variable [DecidableEq A]

/-- The chosen values of the slots in the order are inserted one after another. -/
def refill (table : ProbeTable K A V) (choose : V → Option V) (old : A → V) (order : List A)
    (memory : A → V) : A → V :=
  order.foldl (fun memory slot =>
    if table.keyOf (old slot) = table.vacant then memory
    else ((choose (old slot)).map (table.insert memory)).getD memory) memory

theorem Refilled.take (refilled : Refilled table choose old done memory) (placed : table.Placed old)
    (done_mem : ∀ source ∈ done, source ∈ table.slots) {value : V} (mem : slot ∈ table.slots)
    (fresh : slot ∉ done) (ordered : ∀ source ∈ done, table.rank source ≤ table.rank slot)
    (used : table.keyOf (old slot) ≠ table.vacant) (chosen : choose (old slot) = some value)
    (same_key : table.keyOf value = table.keyOf (old slot)) :
    Refilled table choose old (done ++ [slot]) (table.insert memory value) := by
  have holds : table.Holds old (table.keyOf value) slot := ⟨same_key.symm, same_key ▸ used⟩
  obtain ⟨found, seek_eq, lower⟩ :=
    refilled.seek_eq_some placed done_mem mem holds ordered
  have lookup_eq := refilled.placed.lookup_insert holds.2 seek_eq
  refine ⟨refilled.placed.insert value, ?_, ?_⟩
  · intro place place_mem key holds'
    rw [ProbeTable.insert, seek_eq, holds_update_iff] at holds'
    split at holds'
    · next at_found =>
      obtain ⟨rfl, -⟩ := holds'
      exact ⟨slot, by simp, holds, at_found ▸ lower⟩
    · obtain ⟨source, source_mem, rest⟩ := refilled.risen place place_mem key holds'
      exact ⟨source, mem_append_left _ source_mem, rest⟩
  · intro source source_mem key holds'
    rw [lookup_eq]
    rcases mem_append.mp source_mem with source_mem | source_mem
    · rw [if_neg, refilled.chosen source source_mem key holds']
      rintro rfl
      have same := placed.eq_of_holds (done_mem source source_mem) mem holds' holds
      exact fresh (same ▸ source_mem)
    · obtain rfl := mem_singleton.mp source_mem
      rw [if_pos (holds'.1.symm.trans same_key.symm), chosen]

/-- Refilling an empty table in the order of the ranks keeps every chosen value. -/
theorem refilled_refill (placed : table.Placed old)
    (vacated : ∀ slot ∈ table.slots, table.keyOf (memory slot) = table.vacant)
    (same_key : ∀ value value', choose value = some value' →
      table.keyOf value' = table.keyOf value) {order : List A}
    (order_mem : ∀ slot ∈ order, slot ∈ table.slots) (nodup : order.Nodup)
    (ordered : order.Pairwise fun slot slot' => table.rank slot ≤ table.rank slot') :
    Refilled table choose old order (table.refill choose old order memory) := by
  induction order using List.reverseRecOn with
  | nil =>
    refine ⟨placed_of_vacant vacated, ?_, by simp⟩
    intro slot mem key holds
    exact absurd (holds.1.symm.trans (vacated slot mem)) holds.2
  | append_singleton done slot ih =>
    obtain ⟨nodup_done, -, disjoint⟩ := nodup_append.mp nodup
    obtain ⟨ordered_done, -, before⟩ := pairwise_append.mp ordered
    have done_mem : ∀ source ∈ done, source ∈ table.slots :=
      fun source source_mem => order_mem source (mem_append_left _ source_mem)
    have mem : slot ∈ table.slots := order_mem slot (by simp)
    have fresh : slot ∉ done := fun again => disjoint slot again slot (by simp) rfl
    have refilled := ih done_mem nodup_done ordered_done
    rw [refill, foldl_append, foldl_cons, foldl_nil, ← refill]
    split
    · next vacated =>
      exact refilled.pass fun key holds => absurd (holds.1.symm.trans vacated) holds.2
    · next used =>
      cases chosen : choose (old slot) with
      | none => exact refilled.drop placed done_mem mem fresh chosen
      | some value =>
        refine refilled.take placed done_mem mem fresh ?_ used chosen
          (same_key _ _ chosen)
        exact fun source source_mem => before source source_mem slot (by simp)

end ProbeTable
