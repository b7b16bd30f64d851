import Mathlib.Data.List.Perm.Basic
import McBrpc.Library.KeyedMap

/-!
# Lists with an index

An array of items with distinct keys, together with a map from each key to the position of its
item.  A new item is put at the end, and the place of a removed item is filled with the last one,
so that both operations touch two entries of the map.
-/

/-- Items with distinct keys and the positions of the keys. -/
structure IndexedList {K V : Type*} [DecidableEq K] (key : V → K) where
  items : List V
  index : KeyedMap K Nat
  index_iff : ∀ k position, index.find? k = some position ↔ (items.map key)[position]? = some k

namespace IndexedList

open List Option KeyedMap

variable {K V : Type*}

/-- The last item takes the place of the one at the position. -/
def swapOut (items : List V) (position : Nat) : List V :=
  (items.getLast?.elim items (items.set position)).dropLast

theorem length_swapOut (items : List V) (place : Nat) :
    (swapOut items place).length = items.length - 1 := by
  rw [swapOut, length_dropLast]
  cases items.getLast? with
  | none => rfl
  | some last => rw [elim_some, length_set]

theorem getElem?_swapOut {items : List V} {place : Nat} (inside : place < items.length)
    (other : Nat) :
    (swapOut items place)[other]? =
      if other + 1 < items.length then
        if other = place then items.getLast? else items[other]?
      else none := by
  have last : items.getLast? = some (items.getLast (ne_nil_of_length_pos (by omega))) :=
    getLast?_eq_some_getLast _
  rw [swapOut, last, elim_some, getElem?_dropLast, length_set]
  split
  · next before =>
    rw [if_pos (by omega), getElem?_set]
    split
    · next same => rw [if_pos same.symm]
    · next ne => rw [if_neg (Ne.symm ne)]
  · next beyond => rw [if_neg (by omega)]

theorem map_swapOut {W : Type*} (items : List V) (position : Nat) (image : V → W) :
    (swapOut items position).map image = swapOut (items.map image) position := by
  rw [swapOut, swapOut, map_dropLast, getLast?_map]
  cases items.getLast? with
  | none => rfl
  | some last => rw [elim_some, map_some, elim_some, map_set]

theorem take_swapOut {items : List V} {last : V} (last_eq : items.getLast? = some last)
    (place : Nat) {count : Nat} (fewer : count < items.length) :
    (swapOut items place).take count = (items.take count).set place last := by
  rw [swapOut, last_eq, elim_some, dropLast_eq_take, take_take, length_set,
    Nat.min_eq_left (Nat.le_sub_one_of_lt fewer), take_set]

theorem getLast?_set_getLast {items : List V} (ne : items ≠ []) (place : Nat) :
    (items.set place (items.getLast ne)).getLast? = some (items.getLast ne) := by
  rw [getLast?_eq_getElem?, length_set, getElem?_set]
  split
  · next here =>
    rw [if_pos]
    have := length_pos_iff.mpr ne
    omega
  · rw [← getLast?_eq_getElem?, getLast?_eq_some_getLast ne]

theorem swapOut_perm {items : List V} {place : Nat} {item : V}
    (here : items[place]? = some item) : items.Perm (item :: swapOut items place) := by
  obtain ⟨inside, rfl⟩ := List.getElem?_eq_some_iff.mp here
  have ne : items ≠ [] := ne_nil_of_length_pos (by omega)
  -- both lists hold the items without the removed one, and the last item
  have moved : (swapOut items place ++ [items.getLast ne]).Perm
      (items.getLast ne :: items.eraseIdx place) := by
    rw [swapOut, getLast?_eq_some_getLast ne, elim_some,
      dropLast_append_getLast? _ (getLast?_set_getLast ne place)]
    exact set_perm_cons_eraseIdx inside _
  have kept := (perm_cons _).mp ((perm_append_singleton _ _).symm.trans moved)
  exact (getElem_cons_eraseIdx_perm inside).symm.trans (kept.symm.cons _)

variable [DecidableEq K] {key : V → K}

variable (list : IndexedList key)

theorem position_unique {k : K} {left right : Nat} (at_left : (list.items.map key)[left]? = some k)
    (at_right : (list.items.map key)[right]? = some k) : left = right :=
  some.inj
    (((list.index_iff k left).mpr at_left).symm.trans ((list.index_iff k right).mpr at_right))

theorem nodup_keys : (list.items.map key).Nodup := by
  rw [nodup_iff_getElem?_ne_getElem?]
  intro left right before inside same
  have at_right := getElem?_eq_getElem inside
  have := list.position_unique (same.trans at_right) at_right
  omega

def empty : IndexedList key where
  items := []
  index := ∅
  index_iff k position := by simp

theorem exists_item {list : IndexedList key} {k : K} {place : Nat}
    (found : list.index.find? k = some place) :
    ∃ item, list.items[place]? = some item ∧ key item = k := by
  have at_position := (list.index_iff k place).mp found
  rwa [getElem?_map, map_eq_some_iff] at at_position

theorem position_lt {list : IndexedList key} {k : K} {place : Nat}
    (found : list.index.find? k = some place) : place < list.items.length := by
  obtain ⟨item, at_position, -⟩ := exists_item found
  exact (List.getElem?_eq_some_iff.mp at_position).1

theorem find?_eq_none_iff (k : K) :
    list.index.find? k = none ↔ ∀ item ∈ list.items, key item ≠ k := by
  constructor
  · intro missing item mem same
    obtain ⟨place, at_position⟩ := getElem?_of_mem mem
    have found := (list.index_iff k place).mpr (by simp [at_position, same])
    simp [missing] at found
  · intro ne
    cases found : list.index.find? k with
    | none => rfl
    | some place =>
      obtain ⟨item, at_position, same⟩ := exists_item found
      exact absurd same (ne item (mem_of_getElem? at_position))

def push (item : V) (fresh : list.index.find? (key item) = none) : IndexedList key where
  items := list.items ++ [item]
  index := list.index.insert (key item) list.items.length
  index_iff k position := by
    rw [find?_insert, map_append, map_singleton, getElem?_append, length_map]
    by_cases before : position < list.items.length
    · rw [if_pos before, ← list.index_iff]
      split
      · next same =>
        have apart : list.items.length ≠ position := by omega
        simp [same, fresh, apart]
      · rfl
    · rw [if_neg before, getElem?_singleton]
      split
      · next same =>
        subst same
        simp only [some.injEq, ite_none_right_eq_some, and_true]
        omega
      · next differ =>
        rw [list.index_iff, getElem?_eq_none (by simpa using before)]
        simp [Ne.symm differ]

def itemAt {k : K} {position : Nat} (found : list.index.find? k = some position) : V :=
  list.items.get ⟨position, position_lt found⟩

theorem getElem?_itemAt {list : IndexedList key} {k : K} {place : Nat}
    (found : list.index.find? k = some place) :
    list.items[place]? = some (list.itemAt found) :=
  getElem?_eq_getElem (position_lt found)

theorem key_itemAt {list : IndexedList key} {k : K} {place : Nat}
    (found : list.index.find? k = some place) : key (list.itemAt found) = k := by
  obtain ⟨item, at_position, same⟩ := exists_item found
  obtain rfl := some.inj ((getElem?_itemAt found).symm.trans at_position)
  exact same

def mapItems (change : Nat → V → V)
    (key_eq : ∀ position item, key (change position item) = key item) : IndexedList key where
  items := list.items.mapIdx change
  index := list.index
  index_iff k position := by
    rw [list.index_iff, getElem?_map, getElem?_map, getElem?_mapIdx, Option.map_map]
    simp [key_eq]

def removeAt (k : K) (position : Nat)
    (found : list.index.find? k = some position) : IndexedList key where
  items := swapOut list.items position
  index := (list.items.getLast?.elim list.index fun last =>
    list.index.insert (key last) position).erase k
  index_iff other place := by
    have at_position := (list.index_iff k position).mp found
    obtain ⟨inside, -⟩ := List.getElem?_eq_some_iff.mp at_position
    rw [map_swapOut, getElem?_swapOut inside, getLast?_map, find?_erase, length_map]
    rw [length_map] at inside
    obtain ⟨last, last_eq⟩ : ∃ last, list.items.getLast? = some last :=
      ⟨_, getLast?_eq_some_getLast (ne_nil_of_length_pos (by omega))⟩
    have at_last : (list.items.map key)[list.items.length - 1]? = some (key last) := by
      rw [getElem?_map, ← getLast?_eq_getElem?, last_eq, map_some]
    rw [last_eq, elim_some, map_some, find?_insert]
    have placed := list.index_iff other place
    -- a key stands at one position only
    have only_position : ∀ at_place, (list.items.map key)[at_place]? = some k →
        at_place = position :=
      fun _ here => list.position_unique here at_position
    have only_last : ∀ at_place, (list.items.map key)[at_place]? = some (key last) →
        at_place = list.items.length - 1 := fun _ here => list.position_unique here at_last
    by_cases removed : other = k
    · subst removed
      simp only [if_true, reduceCtorEq, false_iff]
      grind
    · rw [if_neg removed]
      split
      · next is_last =>
        subst is_last
        grind
      · next not_last => grind

end IndexedList
