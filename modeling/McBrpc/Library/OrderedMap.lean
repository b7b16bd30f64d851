import Mathlib.Order.Lattice

/-!
# Ordered maps

A finite map kept as the list of its entries in increasing order of the keys.  Insertion, removal
and replacement are instances of `alter`, which changes the value of one key.  A map is determined
by what is found under each key.
-/

/-- A finite map whose entries are listed in increasing order of the keys. -/
@[ext]
structure OrderedMap (K V : Type*) [LT K] where
  entries : List (K × V)
  sorted : entries.Pairwise fun left right => left.1 < right.1

namespace OrderedMap

open List Option Prod

variable {K V : Type*} [LinearOrder K]

instance instEmptyCollection : EmptyCollection (OrderedMap K V) := ⟨⟨[], .nil⟩⟩

/-- The entries after the value of a key is changed. -/
def alterEntries (key : K) (change : Option V → Option V) : List (K × V) → List (K × V)
  | [] => ((change none).map fun value => (key, value)).toList
  | entry :: entries =>
    if key < entry.1 then
      ((change none).map fun value => (key, value)).toList ++ entry :: entries
    else if key = entry.1 then
      ((change (some entry.2)).map fun value => (key, value)).toList ++ entries
    else entry :: alterEntries key change entries

variable {key : K} {entries : List (K × V)} {entry : K × V} {map : OrderedMap K V}

theorem key_of_mem_alterEntries {change : Option V → Option V}
    (mem : entry ∈ alterEntries key change entries) : entry.1 = key ∨ entry ∈ entries := by
  induction entries with
  | nil =>
    obtain ⟨value, -, rfl⟩ : ∃ value, change none = some value ∧ (key, value) = entry := by
      simpa [alterEntries] using mem
    exact .inl rfl
  | cons first entries ih =>
    rw [alterEntries] at mem
    split_ifs at mem with before here
    · rcases mem_append.mp mem with added | kept
      · obtain ⟨value, -, rfl⟩ : ∃ value, change none = some value ∧ (key, value) = entry := by
          simpa using added
        exact .inl rfl
      · exact .inr kept
    · rcases mem_append.mp mem with changed | kept
      · obtain ⟨value, -, rfl⟩ :
            ∃ value, change (some first.2) = some value ∧ (key, value) = entry := by
          simpa using changed
        exact .inl rfl
      · exact .inr (mem_cons_of_mem _ kept)
    · rcases mem_cons.mp mem with rfl | later
      · exact .inr mem_cons_self
      · exact (ih later).imp_right (mem_cons_of_mem _)

theorem pairwise_alterEntries (key : K) (change : Option V → Option V)
    (sorted : entries.Pairwise fun left right => left.1 < right.1) :
    (alterEntries key change entries).Pairwise fun left right => left.1 < right.1 := by
  induction entries with
  | nil =>
    rw [alterEntries]
    cases change none <;> simp
  | cons first entries ih =>
    obtain ⟨first_lt, rest⟩ := pairwise_cons.mp sorted
    rw [alterEntries]
    split_ifs with before here
    · cases change none with
      | none => exact sorted
      | some value =>
        refine pairwise_cons.mpr ⟨?_, sorted⟩
        exact forall_mem_cons.mpr
          ⟨before, fun later mem => before.trans (first_lt later mem)⟩
    · cases change (some first.2) with
      | none => exact rest
      | some value => exact pairwise_cons.mpr ⟨here ▸ first_lt, rest⟩
    · refine pairwise_cons.mpr ⟨fun later mem => ?_, ih rest⟩
      rcases key_of_mem_alterEntries mem with same | kept
      · rw [same]
        exact lt_of_le_of_ne (not_lt.mp before) (Ne.symm here)
      · exact first_lt later kept

def alter (map : OrderedMap K V) (key : K) (change : Option V → Option V) : OrderedMap K V :=
  ⟨alterEntries key change map.entries, pairwise_alterEntries key change map.sorted⟩

def find? (map : OrderedMap K V) (key : K) : Option V :=
  (map.entries.find? fun entry => decide (entry.1 = key)).map snd

def lookup (entries : List (K × V)) (key : K) : Option V :=
  (entries.find? fun entry => decide (entry.1 = key)).map snd

@[simp]
theorem lookup_nil (key : K) : lookup ([] : List (K × V)) key = none := rfl

theorem lookup_cons (entry : K × V) (entries : List (K × V)) (key : K) :
    lookup (entry :: entries) key = if entry.1 = key then some entry.2 else lookup entries key := by
  rw [lookup, find?_cons]
  split_ifs with here
  · simp [here]
  · simp [here, lookup]

theorem lookup_eq_none (above : ∀ entry ∈ entries, key < entry.1) : lookup entries key = none := by
  rw [lookup, map_eq_none_iff, find?_eq_none]
  exact fun entry mem => by simpa using (above entry mem).ne'

theorem lookup_toList_append (value : Option V) (entries : List (K × V)) (key other : K) :
    lookup ((value.map fun value => (key, value)).toList ++ entries) other =
      if other = key then value.or (lookup entries other) else lookup entries other := by
  cases value with
  | none => simp
  | some value =>
    simp only [map_some, toList_some, singleton_append, lookup_cons, some_or]
    simp only [eq_comm]

theorem lookup_alterEntries (key : K) (change : Option V → Option V)
    (sorted : entries.Pairwise fun left right => left.1 < right.1) (other : K) :
    lookup (alterEntries key change entries) other =
      if other = key then change (lookup entries key) else lookup entries other := by
  induction entries with
  | nil => simpa [alterEntries] using lookup_toList_append (change none) [] key other
  | cons first entries ih =>
    obtain ⟨first_lt, rest⟩ := pairwise_cons.mp sorted
    rw [alterEntries]
    by_cases before : key < first.1
    · have absent : lookup (first :: entries) key = none := by
        refine lookup_eq_none (forall_mem_cons.mpr ⟨before, fun later mem => ?_⟩)
        exact before.trans (first_lt later mem)
      rw [if_pos before, lookup_toList_append]
      split_ifs with same
      · rw [same, absent, or_none]
      · rfl
    · rw [if_neg before]
      by_cases here : key = first.1
      · have absent : lookup entries key = none := lookup_eq_none (here ▸ first_lt)
        rw [if_pos here, lookup_toList_append]
        split_ifs with same
        · rw [same, absent, or_none, lookup_cons, if_pos here.symm]
        · rw [lookup_cons, if_neg fun first_eq => same (first_eq.symm.trans here.symm)]
      · rw [if_neg here, lookup_cons, ih rest]
        split_ifs with first_eq same same
        · exact absurd (same.symm.trans first_eq.symm) here
        · rw [lookup_cons, if_pos first_eq]
        · rw [lookup_cons, if_neg (Ne.symm here)]
        · rw [lookup_cons, if_neg first_eq]

theorem lookup_eq_some_iff (sorted : entries.Pairwise fun left right => left.1 < right.1)
    {value : V} : lookup entries key = some value ↔ (key, value) ∈ entries := by
  induction entries with
  | nil => simp
  | cons first entries ih =>
    obtain ⟨first_lt, rest⟩ := pairwise_cons.mp sorted
    rw [lookup_cons, mem_cons]
    split_ifs with here
    · have absent : (key, value) ∉ entries :=
        fun later => absurd here (first_lt (key, value) later).ne
      rw [or_iff_left absent, some_inj, Prod.ext_iff]
      exact ⟨fun value_eq => ⟨here.symm, value_eq.symm⟩, fun eq => eq.2.symm⟩
    · rw [ih rest, or_iff_right]
      rintro rfl
      exact here rfl

theorem find?_alter (map : OrderedMap K V) (key : K) (change : Option V → Option V) (other : K) :
    (map.alter key change).find? other =
      if other = key then change (map.find? key) else map.find? other :=
  lookup_alterEntries key change map.sorted other

theorem find?_eq_some_iff {value : V} : map.find? key = some value ↔ (key, value) ∈ map.entries :=
  lookup_eq_some_iff map.sorted

theorem nodup_keys (map : OrderedMap K V) : (map.entries.map fst).Nodup :=
  pairwise_map.mpr (map.sorted.imp fun before => before.ne)

/-- The first entry whose key is not below the given one. -/
def lowerBound (map : OrderedMap K V) (key : K) : Option (K × V) :=
  map.entries.find? fun entry => decide (key ≤ entry.1)

theorem mem_of_lowerBound (found : map.lowerBound key = some entry) : entry ∈ map.entries :=
  mem_of_find?_eq_some found

theorem lowerBound_le {other : K × V} (found : map.lowerBound key = some entry)
    (mem : other ∈ map.entries) (le : key ≤ other.1) : entry.1 ≤ other.1 := by
  obtain ⟨-, before, after, entries_eq, passed⟩ := find?_eq_some_iff_append.mp found
  have sorted := map.sorted
  rw [entries_eq] at mem sorted
  rcases mem_append.mp mem with earlier | later
  · simpa [le] using passed other earlier
  · rcases mem_cons.mp later with rfl | later
    · exact le_rfl
    · exact (rel_of_pairwise_cons (pairwise_append.mp sorted).2.1 later).le

end OrderedMap
