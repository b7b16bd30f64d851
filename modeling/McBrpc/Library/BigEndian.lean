import Mathlib.Algebra.GroupWithZero.Nat
import Mathlib.Tactic.Common

/-!
# Big-endian words

A number in a fixed count of bytes, most significant byte first.
-/

namespace BigEndian

open Nat

/-- The lowest `width` bytes of a number, the highest of them first. -/
def encode : Nat → Nat → List UInt8
  | 0, _ => []
  | width + 1, value => UInt8.ofNat (value / 256 ^ width) :: encode width value

def decode : List UInt8 → Nat
  | [] => 0
  | byte :: rest => byte.toNat * 256 ^ rest.length + decode rest

@[simp]
theorem length_encode (width value : Nat) : (encode width value).length = width := by
  induction width with
  | zero => rfl
  | succ width ih => simp [encode, ih]

theorem decode_lt (bytes : List UInt8) : decode bytes < 256 ^ bytes.length := by
  induction bytes with
  | nil => simp [decode]
  | cons byte rest ih =>
    have small : byte.toNat ≤ 255 := le_of_lt_succ byte.toNat_lt
    have scaled : byte.toNat * 256 ^ rest.length ≤ 255 * 256 ^ rest.length :=
      mul_le_mul_right _ small
    simp only [decode, List.length_cons, pow_succ]
    omega

theorem decode_encode (width value : Nat) : decode (encode width value) = value % 256 ^ width := by
  induction width with
  | zero => simp [decode, encode, mod_one]
  | succ width ih =>
    have byte : (UInt8.ofNat (value / 256 ^ width)).toNat = value / 256 ^ width % 256 := by simp
    calc decode (encode (width + 1) value)
        = value / 256 ^ width % 256 * 256 ^ width + value % 256 ^ width := by
          rw [encode, decode, ih, length_encode, byte]
      _ = value % 256 ^ (width + 1) := by
          rw [pow_succ, mod_mul, mul_comm, add_comm]

theorem decode_encode_of_lt {width value : Nat} (fits : value < 256 ^ width) :
    decode (encode width value) = value := by
  rw [decode_encode, mod_eq_of_lt fits]

end BigEndian
