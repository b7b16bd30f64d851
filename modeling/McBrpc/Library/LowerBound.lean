import Mathlib.Order.Lattice

/-!
# `std::lower_bound`

A binary search over positions, which are below the sought value or not.  The result grows with the
positions that are below, whether or not the range is partitioned.
-/

/-- The loop of the search over a number of positions from a first one.  Each round at least halves
the number, so that the number itself is enough fuel. -/
def lowerBoundFrom (below : Nat → Bool) : Nat → Nat → Nat → Nat
  | 0, first, _ => first
  | fuel + 1, first, len =>
    if len = 0 then first
    else
      let half := len / 2
      let middle := first + half
      if below middle then lowerBoundFrom below fuel (middle + 1) (len - half - 1)
      else lowerBoundFrom below fuel first half

def lowerBound (below : Nat → Bool) (len : Nat) : Nat := lowerBoundFrom below len 0 len

theorem le_lowerBoundFrom (below : Nat → Bool) (fuel first len : Nat) :
    first ≤ lowerBoundFrom below fuel first len := by
  fun_induction lowerBoundFrom below fuel first len with
  | case1 | case2 => exact le_rfl
  | case3 fuel first len more half middle is_below ih => omega
  | case4 fuel first len more half middle not_below ih => exact ih

theorem lowerBoundFrom_le (below : Nat → Bool) (fuel first len : Nat) :
    lowerBoundFrom below fuel first len ≤ first + len := by
  fun_induction lowerBoundFrom below fuel first len with
  | case1 | case2 => exact Nat.le_add_right _ _
  | case3 | case4 => omega

section Compare

variable {below further : Nat → Bool} (weaker : ∀ place, below place → further place)
include weaker

theorem lowerBoundFrom_differ (fuel first len : Nat) :
    lowerBoundFrom below fuel first len = lowerBoundFrom further fuel first len ∨
      ∃ place, lowerBoundFrom below fuel first len ≤ place ∧
        place < lowerBoundFrom further fuel first len ∧
        below place = false ∧ further place = true := by
  fun_induction lowerBoundFrom below fuel first len with
  | case1 => exact .inl rfl
  | case2 => simp [lowerBoundFrom]
  | case3 fuel first len more half middle is_below ih =>
    have passed : further middle = true := weaker _ is_below
    have step : lowerBoundFrom further (fuel + 1) first len =
        lowerBoundFrom further fuel (middle + 1) (len - half - 1) := by
      rw [lowerBoundFrom, if_neg more]
      exact if_pos passed
    rw [step]
    exact ih
  | case4 fuel first len more half middle not_below ih =>
    have step : lowerBoundFrom further (fuel + 1) first len =
        if further middle then lowerBoundFrom further fuel (middle + 1) (len - half - 1)
        else lowerBoundFrom further fuel first half := by
      rw [lowerBoundFrom, if_neg more]
    rw [step]
    split
    · next passed =>
      exact .inr ⟨middle, lowerBoundFrom_le below fuel first half,
        le_lowerBoundFrom further fuel (middle + 1) (len - half - 1),
        by simpa using not_below, passed⟩
    · exact ih

theorem lowerBound_mono (len : Nat) : lowerBound below len ≤ lowerBound further len := by
  rcases lowerBoundFrom_differ weaker len 0 len with same | ⟨place, after, before, -, -⟩
  · exact same.le
  · exact after.trans before.le

theorem exists_of_lowerBound_lt {len : Nat} (ne : lowerBound below len < lowerBound further len) :
    ∃ place, lowerBound below len ≤ place ∧ place < lowerBound further len ∧
      below place = false ∧ further place = true :=
  (lowerBoundFrom_differ weaker len 0 len).resolve_left ne.ne

end Compare
