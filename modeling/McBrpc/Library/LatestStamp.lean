import McBrpc.Library.KeyedMap

/-!
# Indexing a queue by the latest occurrence

An index maps a key to the stamp of the latest item with that key.  Pushing overwrites the stamp
under the key of the new item; popping erases a key only if its stamp is the one of the popped
item.
-/

namespace LatestStamp

open Option

variable {α κ : Type*} [DecidableEq κ]

/-- The stamp of the latest item with a key, in a queue whose oldest item is stamped `base`. -/
def latest (keyOf : α → Option κ) (key : κ) : Nat → List α → Option Nat
  | _, [] => none
  | base, item :: items =>
    (latest keyOf key (base + 1) items).or (if keyOf item = some key then some base else none)

/-- Store the stamp of a pushed item under its key, if it has one. -/
def record (index : KeyedMap κ Nat) (key? : Option κ) (stamp : Nat) : KeyedMap κ Nat :=
  match key? with
  | none => index
  | some key => index.insert key stamp

/-- Erase the key of a popped item if the index still points to it.  The key must be there. -/
def forget (index : KeyedMap κ Nat) (key? : Option κ) (stamp : Nat) : Option (KeyedMap κ Nat) :=
  match key? with
  | none => some index
  | some key => (index.find? key).map fun found => if found = stamp then index.erase key else index

/-- The index knows the latest stamp of every key. -/
def Indexes (index : KeyedMap κ Nat) (keyOf : α → Option κ) (base : Nat) (items : List α) : Prop :=
  ∀ key, index.find? key = latest keyOf key base items

variable {keyOf : α → Option κ} {key : κ} {base : Nat} {items : List α}

theorem latest_append_singleton (item : α) : latest keyOf key base (items ++ [item]) =
      if keyOf item = some key then some (base + items.length) else
        latest keyOf key base items := by
  induction items generalizing base with
  | nil => simp [latest]
  | cons first items ih =>
    rw [List.cons_append, latest, ih, latest]
    split
    · rw [some_or, List.length_cons, Nat.add_right_comm, Nat.add_assoc]
    · rfl

theorem latest_eq_some {stamp : Nat} (found : latest keyOf key base items = some stamp) :
    base ≤ stamp ∧ ∃ item, items[stamp - base]? = some item ∧ keyOf item = some key := by
  induction items generalizing base with
  | nil => simp [latest] at found
  | cons first items ih =>
    rw [latest, or_eq_some_iff] at found
    rcases found with later | ⟨-, here⟩
    · obtain ⟨after, item, at_stamp, keyed⟩ := ih later
      refine ⟨by omega, item, ?_, keyed⟩
      rw [show stamp - base = (stamp - (base + 1)) + 1 by omega, List.getElem?_cons_succ]
      exact at_stamp
    · split at here
      · next keyed =>
        obtain rfl := some.inj here
        exact ⟨Nat.le_refl _, first, by simp, keyed⟩
      · simp at here

theorem indexes_empty : Indexes ∅ keyOf base [] := fun _ => KeyedMap.find?_empty _

theorem Indexes.record {index : KeyedMap κ Nat} (indexes : Indexes index keyOf base items)
    (item : α) {stamp : Nat} (stamp_eq : stamp = base + items.length) :
    Indexes (record index (keyOf item) stamp) keyOf base (items ++ [item]) := by
  intro key
  rw [latest_append_singleton]
  cases keyed : keyOf item with
  | none => simpa [LatestStamp.record] using indexes key
  | some own =>
    simp only [LatestStamp.record, KeyedMap.find?_insert, indexes key, stamp_eq,
      some.injEq, eq_comm]

theorem Indexes.forget {index : KeyedMap κ Nat} {item : α}
    (indexes : Indexes index keyOf base (item :: items)) :
    ∃ left, forget index (keyOf item) base = some left ∧ Indexes left keyOf (base + 1) items := by
  cases keyed : keyOf item with
  | none =>
    refine ⟨index, rfl, fun key => ?_⟩
    rw [indexes key, latest, keyed]
    simp
  | some own =>
    have found := indexes own
    rw [latest, keyed, if_pos rfl] at found
    cases later : latest keyOf own (base + 1) items with
    | none =>
      rw [later, none_or] at found
      refine ⟨index.erase own, by simp [LatestStamp.forget, found], fun key => ?_⟩
      rw [KeyedMap.find?_erase]
      split
      · next same => rw [same, later]
      · next ne => simp [indexes key, latest, keyed, Ne.symm ne]
    | some stamp =>
      have after := (latest_eq_some later).1
      rw [later, some_or] at found
      refine ⟨index, by simp [LatestStamp.forget, found, show stamp ≠ base by omega],
        fun key => ?_⟩
      rw [indexes key, latest, keyed]
      by_cases same : own = key
      · subst same
        rw [later, some_or]
      · simp [same]

end LatestStamp
