import Mathlib.Algebra.Group.Nat.Defs
import Mathlib.Tactic.Common

/-!
# Base-128 variable-length integers

Seven payload bits per byte, least significant group first, with the high bit set on every byte
but the last.  Both directions take the largest admissible number of bytes as an argument.
-/

namespace Varint

open UInt8

/-- Encode a number below `128 ^ width` in at most `width` bytes. -/
def encode : Nat → Nat → List UInt8
  | 0, _ => []
  | width + 1, value =>
    if value < 128 then
      [ofNat value]
    else
      ofNat (value % 128 + 128) :: encode width (value / 128)

/-- Decode a number of at most `width` bytes and return the bytes behind it. -/
def decode : Nat → List UInt8 → Option (Nat × List UInt8)
  | 0, _ => none
  | _ + 1, [] => none
  | width + 1, byte :: rest =>
    if byte.toNat < 128 then
      some (byte.toNat, rest)
    else
      (decode width rest).map fun (high, rest) => (byte.toNat % 128 + 128 * high, rest)

theorem decode_encode (width extra value : Nat) (fits : value < 128 ^ (width + 1))
    (rest : List UInt8) :
    decode (width + 1 + extra) (encode (width + 1) value ++ rest) = some (value, rest) := by
  induction width generalizing value with
  | zero =>
    have small : value < 128 := by simpa using fits
    have byte : value % 256 = value := Nat.mod_eq_of_lt (by omega)
    rw [Nat.add_right_comm]
    simp [encode, decode, small, byte]
  | succ width ih =>
    rw [Nat.add_right_comm]
    by_cases small : value < 128
    · have byte : value % 256 = value := Nat.mod_eq_of_lt (by omega)
      simp [encode, decode, small, byte]
    · have quotient : value / 128 < 128 ^ (width + 1) := by
        rw [Nat.div_lt_iff_lt_mul (by decide)]
        rwa [Nat.pow_succ] at fits
      have byte := Nat.mod_eq_of_lt (by omega)
      rw [encode, if_neg small, List.cons_append, decode]
      simp only [toNat_ofNat', ih (value / 128) quotient, Option.map_some]
      rw [if_neg (by omega)]
      simp only [Option.some.injEq, Prod.mk.injEq, and_true]
      omega

end Varint
