import Mathlib.Data.List.AList
import Mathlib.Data.List.Flatten

/-!
# Finite maps with in-place update

A `KeyedMap` is a Mathlib association list with a fixed value type.  The two update forms are the
ones of imperative container code: `modify` reads through a default and stores back, and `settle`
stores a value back unless it has become empty, in which case the key is erased.
-/

/-- A finite map with one value type, listed in an unspecified order. -/
abbrev KeyedMap (α β : Type*) := AList fun _ : α => β

namespace KeyedMap

open List AList

variable {α β : Type*}

def values (map : KeyedMap α β) : List β := map.entries.map Sigma.snd

def mapValues {γ : Type*} (map : KeyedMap α β) (change : β → γ) : KeyedMap α γ where
  entries := map.entries.map fun entry => ⟨entry.1, change entry.2⟩
  nodupKeys := by
    have keys_eq : (map.entries.map fun entry => (⟨entry.1, change entry.2⟩ : Σ _ : α, γ)).keys =
        map.entries.keys := by
      simp [List.keys]
    rw [List.NodupKeys, keys_eq]
    exact map.nodupKeys

def filterKeys (map : KeyedMap α β) (test : α → Bool) : KeyedMap α β where
  entries := map.entries.filter fun entry => test entry.1
  nodupKeys := map.nodupKeys.sublist filter_sublist

variable {map : KeyedMap α β}

theorem filterKeys_of_forall {test : α → Bool} (all : ∀ key, test key = true) :
    map.filterKeys test = map :=
  ext (filter_eq_self.mpr fun entry _ => all entry.1)

theorem filterKeys_of_forall_not {test : α → Bool} (none : ∀ key, test key = false)
    : map.filterKeys test = ∅ :=
  ext (filter_eq_nil_iff.mpr fun entry _ => by simp [none entry.1])

variable [DecidableEq α]

def find? (map : KeyedMap α β) (key : α) : Option β := map.lookup key

/-- Apply `change` to the value under `key`, which starts as `fresh` where it is missing. -/
def modify (map : KeyedMap α β) (key : α) (fresh : β) (change : β → β) : KeyedMap α β :=
  map.insert key (change ((map.find? key).getD fresh))

/-- Store a value under `key`, or erase the key when the value is vacant. -/
def settle (map : KeyedMap α β) (key : α) (vacant : β → Bool) (value : β) : KeyedMap α β :=
  if vacant value then map.erase key else map.insert key value

@[simp]
theorem find?_empty (key : α) : (∅ : KeyedMap α β).find? key = none := rfl

section

variable (map : KeyedMap α β)

variable (key other : α) (value : β)

theorem find?_insert :
    find? (map.insert key value) other = if other = key then some value else map.find? other := by
  split
  · next same =>
    subst same
    exact lookup_insert map
  · next ne => exact lookup_insert_ne ne

theorem find?_erase :
    find? (map.erase key) other = if other = key then none else map.find? other := by
  split
  · next same =>
    subst same
    exact lookup_erase other map
  · next ne => exact lookup_erase_ne ne

theorem find?_modify (fresh : β) (change : β → β) : (map.modify key fresh change).find? other =
      if other = key then some (change ((map.find? key).getD fresh)) else map.find? other :=
  find?_insert map key other _

theorem find?_settle (vacant : β → Bool) (value : β) : (map.settle key vacant value).find? other =
      if other = key then (if vacant value then none else some value) else map.find? other := by
  unfold settle
  split
  · exact find?_erase map key other
  · exact find?_insert map key other value

theorem mem_entries_iff : ⟨key, value⟩ ∈ map.entries ↔ map.find? key = some value :=
  mem_lookup_iff.symm

theorem mem_values_iff : value ∈ map.values ↔ ∃ key, map.find? key = some value := by
  simp only [values, mem_map, Sigma.exists, mem_entries_iff]
  simp

end

theorem values_insert_of_find?_none {key : α} (missing : map.find? key = none) (value : β)
    : values (map.insert key value) = value :: map.values := by
  have fresh : key ∉ map := lookup_eq_none.mp missing
  rw [values, entries_insert_of_notMem fresh]
  rfl

theorem eq_empty_of_find? (missing : ∀ key, map.find? key = none) : map = ∅ := by
  apply ext
  rw [empty_entries, eq_nil_iff_forall_not_mem]
  rintro ⟨key, value⟩ mem
  rw [mem_entries_iff, missing] at mem
  simp at mem

theorem find?_of_entries_nil (vacant : map.entries = []) (key : α) : map.find? key = none := by
  have empty : map = ∅ := ext vacant
  rw [empty, find?_empty]

theorem nodup_flatten_values {map : KeyedMap α (List β)}
    (each : ∀ key list, map.find? key = some list → list.Nodup)
    (apart : ∀ left right list list', map.find? left = some list →
      map.find? right = some list' → left ≠ right → list.Disjoint list') :
    map.values.flatten.Nodup := by
  rw [nodup_flatten]
  constructor
  · intro list list_mem
    obtain ⟨key, found⟩ := (mem_values_iff map list).mp list_mem
    exact each key list found
  · rw [values, pairwise_map]
    have keysApart := nodupKeys_iff_pairwise.mp map.nodupKeys
    refine keysApart.imp_of_mem ?_
    rintro ⟨left, list⟩ ⟨right, list'⟩ left_mem right_mem ne
    exact apart left right list list' ((mem_entries_iff map left list).mp left_mem)
      ((mem_entries_iff map right list').mp right_mem) ne

end KeyedMap
