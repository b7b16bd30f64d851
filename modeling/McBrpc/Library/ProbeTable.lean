import Mathlib.Data.Set.Basic
import Mathlib.Data.List.Nodup

/-!
# Tables probed along paths

Every key has a path of slots.  A search walks down the path and stops at the first slot that is
vacant or holds the key; an insertion writes where the search stops.  The one invariant is that
the search for a stored key stops at its slot.
-/

/-- The slots of a table and the path along which each key is searched. -/
structure ProbeTable (K A V : Type*) where
  vacant : K
  keyOf : V → K
  slots : Set A
  path : K → List A
  path_subset : ∀ key, ∀ slot ∈ path key, slot ∈ slots
  rank : A → Nat
  rank_path : ∀ key index slot, (path key)[index]? = some slot → rank slot = index

namespace ProbeTable

open Function List Option

variable {K A V : Type*} (table : ProbeTable K A V)

/-- A search for the key goes no further than the slot. -/
def Stops (memory : A → V) (key : K) (slot : A) : Prop :=
  table.keyOf (memory slot) = table.vacant ∨ table.keyOf (memory slot) = key

def Holds (memory : A → V) (key : K) (slot : A) : Prop :=
  table.keyOf (memory slot) = key ∧ key ≠ table.vacant

section Slots

variable {table} {memory : A → V} {key : K} {slot : A}

theorem getElem?_rank (mem : slot ∈ table.path key) :
    (table.path key)[table.rank slot]? = some slot := by
  obtain ⟨index, found⟩ := mem_iff_getElem?.mp mem
  rw [table.rank_path key index slot found]
  exact found

theorem eq_of_rank_eq {slot' : A} (mem : slot ∈ table.path key)
    (slot'_mem : slot' ∈ table.path key) (same : table.rank slot = table.rank slot') :
    slot = slot' := by
  have left := getElem?_rank mem
  rw [same, getElem?_rank slot'_mem] at left
  exact (some.inj left).symm

theorem holds_update_iff [DecidableEq A] {other : A} {value : V} :
    table.Holds (update memory slot value) key other ↔
      if other = slot then table.keyOf value = key ∧ key ≠ table.vacant
      else table.Holds memory key other := by
  by_cases same : other = slot
  · subst same
    simp [Holds]
  · simp [Holds, same]

theorem nodup_path (key : K) : (table.path key).Nodup := by
  rw [nodup_iff_getElem?_ne_getElem?]
  intro index index' lower inside same
  rw [getElem?_eq_getElem inside] at same
  have left := table.rank_path key index _ same
  have right := table.rank_path key index' _ (getElem?_eq_getElem inside)
  omega

theorem not_stops_update [DecidableEq A] {other : K} {earlier : A} {value : V}
    (stops : table.Stops memory key slot) (value_key : table.keyOf value = key)
    (refused : ¬ table.Stops memory other earlier) :
    ¬ table.Stops (update memory slot value) other earlier := by
  by_cases same : earlier = slot
  · subst same
    rw [Stops, not_or] at refused
    have stored := stops.resolve_left refused.1
    rw [Stops, update_self, value_key, ← stored, not_or]
    exact refused
  · rw [Stops, update_of_ne same]
    exact refused

end Slots

variable [DecidableEq K]

instance (memory : A → V) (key : K) (slot : A) : Decidable (table.Stops memory key slot) :=
  inferInstanceAs (Decidable (_ ∨ _))

def seek (memory : A → V) (key : K) : Option A :=
  (table.path key).find? fun slot => decide (table.Stops memory key slot)

def lookup (memory : A → V) (key : K) : Option V :=
  (table.seek memory key).bind fun slot =>
    if table.keyOf (memory slot) = table.vacant then none else some (memory slot)

/-- The search for every stored key stops at its slot. -/
def Placed (memory : A → V) : Prop :=
  ∀ slot ∈ table.slots, ∀ key, table.Holds memory key slot → table.seek memory key = some slot

/-- Every slot of the path holds another key. -/
def Full (memory : A → V) (key : K) : Prop :=
  ∀ slot ∈ table.path key, ¬ table.Stops memory key slot

variable {table} {memory : A → V} {key : K} {slot : A} {value blank : V}

theorem seek_eq_none_iff : table.seek memory key = none ↔ table.Full memory key := by
  simp [seek, Full]

theorem seek_congr {memory' : A → V}
    (keys : ∀ slot, table.keyOf (memory slot) = table.keyOf (memory' slot)) (key : K) :
    table.seek memory key = table.seek memory' key := by
  have stops (slot : A) : table.Stops memory key slot ↔ table.Stops memory' key slot := by
    rw [Stops, Stops, keys slot]
  simp [seek, stops]

theorem seek_eq_some_iff : table.seek memory key = some slot ↔
      table.Stops memory key slot ∧ ∃ before after, table.path key = before ++ slot :: after ∧
        ∀ earlier ∈ before, ¬ table.Stops memory key earlier := by
  simp [seek, find?_eq_some_iff_append]

section

variable (found : table.seek memory key = some slot)
include found

theorem seek_stops : table.Stops memory key slot :=
  (seek_eq_some_iff.mp found).1

theorem seek_mem_path : slot ∈ table.path key :=
  mem_of_find?_eq_some found

theorem seek_mem_slots : slot ∈ table.slots :=
  table.path_subset key slot (seek_mem_path found)

end

theorem seek_le_of_stops (mem : slot ∈ table.path key) (stops : table.Stops memory key slot) :
    ∃ found, table.seek memory key = some found ∧ table.rank found ≤ table.rank slot := by
  have finds : (table.seek memory key).isSome := by
    rw [seek, find?_isSome]
    exact ⟨slot, mem, by simpa using stops⟩
  obtain ⟨found, found_eq⟩ := isSome_iff_exists.mp finds
  refine ⟨found, found_eq, ?_⟩
  obtain ⟨-, before, after, path_eq, passed⟩ := seek_eq_some_iff.mp found_eq
  have rank_found : table.rank found = before.length :=
    table.rank_path key _ found (by simp [path_eq])
  by_contra later
  have early : table.rank slot < before.length := by omega
  have slot_eq := getElem?_rank mem
  rw [path_eq, getElem?_append_left early] at slot_eq
  exact passed slot (mem_of_getElem? slot_eq) stops

theorem passed_of_seek (found : table.seek memory key = some slot) {index : Nat}
    (lower : index < table.rank slot) :
    ∃ prior other, (table.path key)[index]? = some prior ∧
      table.Holds memory other prior ∧ other ≠ key := by
  obtain ⟨-, before, after, path_eq, passed⟩ := seek_eq_some_iff.mp found
  have rank_slot : table.rank slot = before.length :=
    table.rank_path key _ slot (by simp [path_eq])
  have early : index < before.length := by omega
  refine ⟨before[index], table.keyOf (memory before[index]), ?_, ?_⟩
  · rw [path_eq, getElem?_append_left early, getElem?_eq_getElem early]
  · have refused := passed before[index] (getElem_mem early)
    rw [Stops, not_or] at refused
    exact ⟨⟨rfl, refused.1⟩, refused.2⟩

theorem Placed.eq_of_holds (placed : table.Placed memory) {slot' : A}
    (mem : slot ∈ table.slots) (slot'_mem : slot' ∈ table.slots)
    (holds : table.Holds memory key slot) (holds' : table.Holds memory key slot') :
    slot = slot' := by
  have left := placed slot mem key holds
  rw [placed slot' slot'_mem key holds'] at left
  exact (some.inj left).symm

theorem placed_of_vacant (vacated : ∀ slot ∈ table.slots, table.keyOf (memory slot) =
    table.vacant) :
    table.Placed memory := by
  intro slot mem key holds
  exact absurd (holds.1.symm.trans (vacated slot mem)) holds.2

theorem Placed.lookup_eq_some_iff (placed : table.Placed memory) :
    table.lookup memory key = some value ↔
      ∃ slot ∈ table.slots, table.Holds memory key slot ∧ memory slot = value := by
  constructor
  · intro found
    obtain ⟨slot, seek_eq, value_eq⟩ := bind_eq_some_iff.mp found
    split at value_eq
    · simp at value_eq
    · next occupied =>
      have same := (seek_stops seek_eq).resolve_left occupied
      refine ⟨slot, seek_mem_slots seek_eq, ⟨same, ?_⟩, some.inj value_eq⟩
      rw [← same]
      exact occupied
  · rintro ⟨slot, mem, holds, rfl⟩
    have occupied := holds.1 ▸ holds.2
    simp [lookup, placed slot mem key holds, occupied]

theorem Placed.lookup_eq_none_iff (placed : table.Placed memory) :
    table.lookup memory key = none ↔ ∀ slot ∈ table.slots, ¬ table.Holds memory key slot := by
  rw [eq_none_iff_forall_ne_some]
  constructor
  · intro missing slot mem holds
    exact missing _ (placed.lookup_eq_some_iff.mpr ⟨slot, mem, holds, rfl⟩)
  · intro absent value found
    obtain ⟨slot, mem, holds, -⟩ := placed.lookup_eq_some_iff.mp found
    exact absent slot mem holds

theorem lookup_related {related : V → V → Prop}
    (keys : ∀ value value', related value value' → table.keyOf value = table.keyOf value')
    {memory' : A → V} (before : ∀ slot, related (memory slot) (memory' slot))
    (found : table.lookup memory key = some value) :
    ∃ value', table.lookup memory' key = some value' ∧ related value value' := by
  obtain ⟨slot, seek_eq, value_eq⟩ := bind_eq_some_iff.mp found
  have key_eq := keys _ _ (before slot)
  rw [seek_congr fun slot => keys _ _ (before slot)] at seek_eq
  split at value_eq
  · simp at value_eq
  · next occupied =>
    obtain rfl := some.inj value_eq
    exact ⟨memory' slot, by simp [lookup, seek_eq, ← key_eq, occupied], before slot⟩

theorem Full.lookup_eq_none (full : table.Full memory key) : table.lookup memory key = none := by
  rw [lookup, seek_eq_none_iff.mpr full, bind_none]

variable [DecidableEq A]

/-- The value is written where the search for its key stops. -/
def insert (table : ProbeTable K A V) (memory : A → V) (value : V) : A → V :=
  match table.seek memory (table.keyOf value) with
  | some slot => update memory slot value
  | none => memory

theorem insert_related {related : V → V → Prop}
    (keys : ∀ value value', related value value' → table.keyOf value = table.keyOf value')
    {memory' : A → V} (before : ∀ slot, related (memory slot) (memory' slot))
    {value value' : V} (given : related value value') (slot : A) :
    related (table.insert memory value slot) (table.insert memory' value' slot) := by
  rw [ProbeTable.insert, ProbeTable.insert, keys _ _ given,
    seek_congr fun slot => keys _ _ (before slot)]
  cases table.seek memory' (table.keyOf value') with
  | none => exact before slot
  | some found =>
    rcases eq_or_ne slot found with rfl | ne
    · simpa using given
    · simpa [ne] using before slot

theorem insert_forall (table : ProbeTable K A V) {keeps : V → Prop}
    (kept : ∀ slot, keeps (memory slot)) (given : keeps value) (slot : A) :
    keeps (table.insert memory value slot) := by
  have related := @insert_related _ _ _ table _ memory _
    (fun stored stored' => stored = stored' ∧ keeps stored) (fun _ _ same => by rw [same.1]) memory
    (fun slot => ⟨rfl, kept slot⟩) value value ⟨rfl, given⟩ slot
  exact related.2

theorem Placed.insert (placed : table.Placed memory) (value : V) :
    table.Placed (table.insert memory value) := by
  rw [ProbeTable.insert]
  split
  · next slot seek_eq =>
    have stops := seek_stops seek_eq
    intro other mem key holds
    rw [holds_update_iff] at holds
    split at holds
    · next same =>
      subst same
      obtain ⟨rfl, used⟩ := holds
      obtain ⟨-, before, after, path_eq, passed⟩ := seek_eq_some_iff.mp seek_eq
      refine seek_eq_some_iff.mpr ⟨.inr (by simp), before, after, path_eq, ?_⟩
      intro prior earlier_mem
      exact not_stops_update stops rfl (passed prior earlier_mem)
    · next ne =>
      obtain ⟨-, before, after, path_eq, passed⟩ :=
        seek_eq_some_iff.mp (placed other mem key holds)
      refine seek_eq_some_iff.mpr ⟨.inr ?_, before, after, path_eq, ?_⟩
      · rw [update_of_ne ne]
        exact holds.1
      · intro prior earlier_mem
        exact not_stops_update stops rfl (passed prior earlier_mem)
  · exact placed

theorem Full.insert (full : table.Full memory key) (value : V) :
    table.Full (table.insert memory value) key := by
  rw [ProbeTable.insert]
  split
  · next seek_eq =>
    exact fun slot mem => not_stops_update (seek_stops seek_eq) rfl (full slot mem)
  · exact full

theorem Placed.lookup_insert (placed : table.Placed memory)
    (used : table.keyOf value ≠ table.vacant)
    (found : table.seek memory (table.keyOf value) = some slot) (key : K) :
    table.lookup (table.insert memory value) key =
      if key = table.keyOf value then some value else table.lookup memory key := by
  have placed' := placed.insert value
  have insert_eq : table.insert memory value = update memory slot value := by
    rw [ProbeTable.insert, found]
  have slot_mem := seek_mem_slots found
  rw [insert_eq] at placed' ⊢
  by_cases same : key = table.keyOf value
  · rw [if_pos same, placed'.lookup_eq_some_iff]
    exact ⟨slot, slot_mem, by simp [Holds, same, used], by simp⟩
  · rw [if_neg same]
    apply ext
    intro result
    rw [placed'.lookup_eq_some_iff, placed.lookup_eq_some_iff]
    refine exists_congr fun other => and_congr_right fun mem => ?_
    rw [holds_update_iff]
    by_cases at_slot : other = slot
    · subst at_slot
      have elsewhere : ¬ table.Holds memory key other := by
        rintro ⟨rfl, nonvacant⟩
        exact same ((seek_stops found).resolve_left nonvacant)
      simp [elsewhere, Ne.symm same]
    · simp [at_slot]

theorem insert_of_seek_none (full : table.seek memory (table.keyOf value) = none)
    : table.insert memory value = memory := by
  rw [ProbeTable.insert, full]

variable (placed : table.Placed memory)
include placed

theorem Placed.lookup_insert_of_ne
    (used : table.keyOf value ≠ table.vacant) (ne : key ≠ table.keyOf value) :
    table.lookup (table.insert memory value) key = table.lookup memory key := by
  cases seek_eq : table.seek memory (table.keyOf value) with
  | none => rw [insert_of_seek_none seek_eq]
  | some slot => rw [placed.lookup_insert used seek_eq, if_neg ne]

theorem Placed.lookup_insert_self (used : table.keyOf value ≠ table.vacant) :
    table.lookup (table.insert memory value) (table.keyOf value) = some value ∨
      table.Full memory (table.keyOf value) := by
  cases seek_eq : table.seek memory (table.keyOf value) with
  | none => exact .inr (seek_eq_none_iff.mp seek_eq)
  | some slot =>
    rw [placed.lookup_insert used seek_eq, if_pos rfl]
    exact .inl rfl

variable (blank_key : table.keyOf blank = table.vacant)
include blank_key

theorem Placed.release (isolated : ∀ other ∈ table.slots, ∀ key, table.Holds memory key other →
      table.rank slot < table.rank other → slot ∉ table.path key) :
    table.Placed (update memory slot blank) := by
  intro other mem key holds
  rw [holds_update_iff] at holds
  split at holds
  · exact absurd (holds.1.symm.trans blank_key) holds.2
  · next ne =>
    have seek_eq := placed other mem key holds
    obtain ⟨-, before, after, path_eq, passed⟩ := seek_eq_some_iff.mp seek_eq
    refine seek_eq_some_iff.mpr ⟨.inr ?_, before, after, path_eq, ?_⟩
    · rw [update_of_ne ne]
      exact holds.1
    · intro prior earlier_mem
      have elsewhere : prior ≠ slot := by
        rintro rfl
        obtain ⟨index, index_eq⟩ := mem_iff_getElem?.mp earlier_mem
        obtain ⟨early, -⟩ := List.getElem?_eq_some_iff.mp index_eq
        have rank_earlier : table.rank prior = index :=
          table.rank_path key index prior
            (by rw [path_eq, getElem?_append_left early, index_eq])
        have rank_other : table.rank other = before.length :=
          table.rank_path key _ other (by simp [path_eq])
        refine isolated other mem key holds (by omega) ?_
        rw [path_eq]
        exact mem_append_left _ earlier_mem
      rw [Stops, update_of_ne elsewhere]
      exact passed prior earlier_mem

theorem Placed.lookup_release (placed' : table.Placed (update memory slot blank))
    (mem : slot ∈ table.slots) (holds : table.Holds memory key slot) (other : K) :
    table.lookup (update memory slot blank) other =
      if other = key then none else table.lookup memory other := by
  have emptied : ¬ table.Holds (update memory slot blank) other slot := by
    rw [holds_update_iff, if_pos rfl, blank_key]
    rintro ⟨rfl, used⟩
    exact used rfl
  by_cases same : other = key
  · subst same
    rw [if_pos rfl, placed'.lookup_eq_none_iff]
    intro place place_mem holds'
    by_cases at_slot : place = slot
    · exact emptied (at_slot ▸ holds')
    · rw [holds_update_iff, if_neg at_slot] at holds'
      exact at_slot (placed.eq_of_holds place_mem mem holds' holds)
  · rw [if_neg same]
    apply ext
    intro value
    rw [placed'.lookup_eq_some_iff, placed.lookup_eq_some_iff]
    refine exists_congr fun place => and_congr_right fun place_mem => ?_
    by_cases at_slot : place = slot
    · subst at_slot
      have elsewhere : ¬ table.Holds memory other place := by
        intro holds'
        exact same (holds'.1.symm.trans holds.1)
      simp [elsewhere, emptied]
    · rw [holds_update_iff, if_neg at_slot, update_of_ne at_slot]

theorem Placed.lookup_release_of_passed {other : A} (mem : other ∈ table.slots)
    (holds : table.Holds memory key other) (lower : table.rank slot < table.rank other)
    (passes : slot ∈ table.path key) :
    table.lookup (update memory slot blank) key = none := by
  have stops : table.Stops (update memory slot blank) key slot := by
    rw [Stops, update_self]
    exact .inl blank_key
  obtain ⟨found, seek_eq, rank_le⟩ := seek_le_of_stops passes stops
  rw [lookup, seek_eq, bind_some, if_pos]
  by_contra used
  have same := (seek_stops seek_eq).resolve_left used
  have elsewhere : found ≠ slot := by
    rintro rfl
    rw [update_self] at used
    exact used blank_key
  rw [update_of_ne elsewhere] at same
  have equal : found = other :=
    placed.eq_of_holds (seek_mem_slots seek_eq) mem ⟨same, holds.2⟩ holds
  subst equal
  omega

end ProbeTable
