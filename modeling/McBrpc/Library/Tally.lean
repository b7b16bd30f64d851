import Mathlib.Algebra.BigOperators.Group.List.Basic

/-!
# Totals under a key

Items of a list carry a key and an amount.  `tally` adds the amounts of the items under one key.
-/

/-- The sum of the amounts of the items under `place`. -/
def tally {ι κ μ : Type*} [DecidableEq κ] [AddCommMonoid μ] (key : ι → κ) (amount : ι → μ)
    (items : List ι) (place : κ) : μ :=
  ((items.filter fun item => key item = place).map amount).sum

namespace Tally

open List

variable {ι κ μ : Type*} [DecidableEq κ] [AddCommMonoid μ] (key : ι → κ) (amount : ι → μ)

@[simp]
theorem tally_nil (place : κ) : tally key amount [] place = 0 := rfl

theorem tally_cons (item : ι) (items : List ι) (place : κ) :
    tally key amount (item :: items) place =
      (if key item = place then amount item else 0) + tally key amount items place := by
  by_cases same : key item = place
  · rw [tally, tally, filter_cons_of_pos (by simpa using same), map_cons, sum_cons, if_pos same]
  · rw [tally, tally, filter_cons_of_neg (by simpa using same), if_neg same, zero_add]

theorem tally_append (items items' : List ι) (place : κ) :
    tally key amount (items ++ items') place =
      tally key amount items place + tally key amount items' place := by
  rw [tally, filter_append, map_append, sum_append]
  rfl

theorem tally_eq_zero {items : List ι} {place : κ} (foreign : ∀ item ∈ items, key item ≠ place) :
    tally key amount items place = 0 := by
  rw [tally, filter_eq_nil_iff.mpr (by simpa using foreign)]
  rfl

theorem tally_of_nodup {items : List ι} (nodup : (items.map key).Nodup) {item : ι}
    (item_mem : item ∈ items) : tally key amount items (key item) = amount item := by
  induction items with
  | nil => cases item_mem
  | cons first rest ih =>
    obtain ⟨fresh, nodup_rest⟩ := nodup_cons.mp nodup
    have apart : ∀ other ∈ rest, key other ≠ key first := by
      intro other mem same
      exact fresh (same ▸ mem_map_of_mem mem)
    rw [tally_cons]
    rcases mem_cons.mp item_mem with rfl | item_mem
    · rw [if_pos rfl, tally_eq_zero key amount apart, add_zero]
    · rw [if_neg (apart item item_mem).symm, zero_add, ih nodup_rest item_mem]

end Tally
