import Mathlib.Data.Nat.Bitwise

/-!
# Numbers as bits, highest first

The bit strings that a packed format writes: `msbBits width value` lists the lowest `width` bits of
a number from the highest of them down.
-/

namespace MsbBits

open Nat List

/-- The lowest `width` bits of a number, the highest of them first. -/
def msbBits : Nat → Nat → List Bool
  | 0, _ => []
  | width + 1, value => value.testBit width :: msbBits width value

@[simp]
theorem length_msbBits (width value : Nat) : (msbBits width value).length = width := by
  induction width with
  | zero => rfl
  | succ width ih => simp [msbBits, ih]

theorem msbBits_congr {width left right : Nat}
    (same : ∀ i < width, left.testBit i = right.testBit i) :
    msbBits width left = msbBits width right := by
  induction width with
  | zero => rfl
  | succ width ih =>
    rw [msbBits, msbBits, same width (lt_succ_self _), ih fun i below => same i (by omega)]

theorem msbBits_add (upper lower value : Nat) :
    msbBits (upper + lower) value = msbBits upper (value >>> lower) ++ msbBits lower value := by
  induction upper with
  | zero => simp [msbBits]
  | succ upper ih =>
    rw [succ_add, msbBits, msbBits, ih, cons_append, testBit_shiftRight, add_comm lower upper]

theorem msbBits_mod {width bound : Nat} (inside : width ≤ bound) (value : Nat) :
    msbBits width (value % 2 ^ bound) = msbBits width value :=
  msbBits_congr fun i below => by
    simp [testBit_mod_two_pow, lt_of_lt_of_le below inside]

theorem msbBits_ones (width : Nat) : msbBits width (2 ^ width - 1) = replicate width true := by
  suffices all : ∀ bound, width ≤ bound →
      msbBits width (2 ^ bound - 1) = replicate width true from all width (le_refl _)
  intro bound inside
  induction width with
  | zero => rfl
  | succ width ih =>
    rw [msbBits, ih (by omega), replicate_succ, testBit_two_pow_sub_one, decide_eq_true (by omega)]

theorem msbBits_or_of_zeros {upper lower value filled : Nat}
    (zeros : ∀ i < lower, value.testBit i = false) (small : filled < 2 ^ lower) :
    msbBits (upper + lower) (value ||| filled) =
      msbBits upper (value >>> lower) ++ msbBits lower filled := by
  rw [msbBits_add, shiftRight_or_distrib, shiftRight_eq_zero filled lower small, or_zero]
  exact congrArg _ (msbBits_congr fun i below => by simp [zeros i below])

end MsbBits
