import Mathlib.Tactic.Common

/-!
# Classes with one marked member

A view gives each key a class and a mark, or nothing.  `OneEach` says that every class that occurs
has exactly one marked key.  Adding a key and removing keys keep this under exact conditions.
-/

namespace Marking

open Function

variable {K C : Type*}

/-- Every class that occurs has exactly one marked key. -/
def OneEach (view : K → Option (C × Bool)) : Prop :=
  ∀ c, (∃ key mark, view key = some (c, mark)) → ∃! key, view key = some (c, true)

variable {view : K → Option (C × Bool)}

/-- A new key may join exactly when it is marked if its class is new and not otherwise. -/
theorem oneEach_update_iff [DecidableEq K] (holds : OneEach view) {key : K}
    (fresh : view key = none) (c : C) (mark : Bool) :
    OneEach (update view key (some (c, mark))) ↔
      (mark = true ↔ ∀ other m, view other ≠ some (c, m)) := by
  have after_iff : ∀ other d m, update view key (some (c, mark)) other = some (d, m) ↔
      (other = key ∧ d = c ∧ m = mark) ∨ view other = some (d, m) := by
    intro other d m
    rw [update_apply]
    split
    · next same => simp [same, fresh, eq_comm]
    · next ne => simp [ne]
  constructor
  · intro after
    have added := (after_iff key c mark).mpr (.inl ⟨rfl, rfl, rfl⟩)
    obtain ⟨marked, marked_eq, unique⟩ := after c ⟨key, mark, added⟩
    constructor
    · rintro rfl other m found
      obtain ⟨carrier, carrier_eq, -⟩ := holds c ⟨other, m, found⟩
      have carrier_kept := (after_iff carrier c true).mpr (.inr carrier_eq)
      obtain rfl : carrier = key := (unique carrier carrier_kept).trans (unique key added).symm
      rw [fresh] at carrier_eq
      cases carrier_eq
    · intro vacant
      rcases (after_iff marked c true).mp marked_eq with ⟨-, -, mark_eq⟩ | old
      · exact mark_eq.symm
      · exact absurd old (vacant marked true)
  · rintro agree d ⟨other, m, found⟩
    by_cases joins : d = c ∧ mark = true
    · obtain ⟨rfl, rfl⟩ := joins
      refine ⟨key, (after_iff key d true).mpr (.inl ⟨rfl, rfl, rfl⟩), fun carrier carrier_eq => ?_⟩
      rcases (after_iff carrier d true).mp carrier_eq with ⟨here, -, -⟩ | old
      · exact here
      · exact absurd old (agree.mp rfl carrier true)
    · have present : ∃ other m, view other = some (d, m) := by
        rcases (after_iff other d m).mp found with ⟨-, rfl, -⟩ | old
        · by_contra! vacant
          exact joins ⟨rfl, agree.mpr vacant⟩
        · exact ⟨other, m, old⟩
      obtain ⟨carrier, carrier_eq, unique⟩ := holds d present
      refine ⟨carrier, (after_iff carrier d true).mpr (.inr carrier_eq), fun other marked => ?_⟩
      rcases (after_iff other d true).mp marked with ⟨-, class_eq, mark_eq⟩ | old
      · exact absurd ⟨class_eq, mark_eq.symm⟩ joins
      · exact unique other old

theorem oneEach_remove_iff (holds : OneEach view) (removed : K → Prop) [DecidablePred removed] :
    OneEach (fun key => if removed key then none else view key) ↔
      ∀ key c, view key = some (c, true) → removed key →
        ∀ other m, view other = some (c, m) → removed other := by
  have left_iff : ∀ key c m, (if removed key then none else view key) = some (c, m) ↔
      ¬removed key ∧ view key = some (c, m) := by
    intro key c m
    split
    · next gone => simp [gone]
    · next stays => simp [stays]
  constructor
  · intro after key c marked gone other m found
    by_contra stays
    obtain ⟨carrier, carrier_eq, -⟩ := after c ⟨other, m, (left_iff other c m).mpr ⟨stays, found⟩⟩
    obtain ⟨carrier_stays, carrier_marked⟩ := (left_iff carrier c true).mp carrier_eq
    obtain ⟨only, -, unique⟩ := holds c ⟨other, m, found⟩
    obtain rfl : key = carrier := (unique key marked).trans (unique carrier carrier_marked).symm
    exact carrier_stays gone
  · rintro together c ⟨other, m, found⟩
    obtain ⟨stays, present⟩ := (left_iff other c m).mp found
    obtain ⟨carrier, carrier_eq, unique⟩ := holds c ⟨other, m, present⟩
    have carrier_stays : ¬removed carrier :=
      fun gone => stays (together carrier c carrier_eq gone other m present)
    refine ⟨carrier, (left_iff carrier c true).mpr ⟨carrier_stays, carrier_eq⟩, ?_⟩
    intro key marked
    exact unique key ((left_iff key c true).mp marked).2

end Marking
