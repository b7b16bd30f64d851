import Mathlib.Algebra.Group.Nat.Defs
import Mathlib.Data.List.TakeWhile
import Mathlib.Order.Lattice
import Mathlib.Tactic.Common

/-!
# Decimal numbers as the C library reads them

`strtoll` skips white space, takes a sign and the digits behind it, and says how many bytes it
took: none when there is no digit.  White space includes the line end, so a number is looked for
behind an empty line.
-/

namespace CNumber

open List

def isspace (c : UInt8) : Bool := c == 32 || (9 ≤ c.toNat && c.toNat ≤ 13)

def isdigit (c : UInt8) : Bool := 48 ≤ c.toNat && c.toNat ≤ 57

def value (digits : List UInt8) : Nat := digits.foldl (fun sum c => 10 * sum + (c.toNat - 48)) 0

/-- A `long long` keeps the nearest value it can hold. -/
def saturate (n : Int) : Int := max (-9223372036854775808) (min n 9223372036854775807)

def signs (text : List UInt8) : Nat :=
  if text.head? = some 43 ∨ text.head? = some 45 then 1 else 0

/-- `strtoll` in base ten on a text that ends with a NUL: the number and the bytes taken. -/
def strtoll (text : List UInt8) : Int × Nat :=
  let rest := text.dropWhile isspace
  let digits := (rest.drop (signs rest)).takeWhile isdigit
  if digits = [] then (0, 0)
  else
    (saturate (if rest.head? = some 45 then -(value digits : Int) else value digits),
      (text.takeWhile isspace).length + signs rest + digits.length)

theorem saturate_of_lt {n : Nat} (small : n < 2 ^ 63) : saturate n = n := by
  unfold saturate
  omega

theorem value_append_singleton (digits : List UInt8) (c : UInt8) :
    value (digits ++ [c]) = 10 * value digits + (c.toNat - 48) := by
  simp [value]

theorem isspace_of_isdigit {c : UInt8} (digit : isdigit c) : isspace c = false := by
  revert c
  suffices ∀ n : Fin 256, isdigit (UInt8.ofNat n) → isspace (UInt8.ofNat n) = false by
    intro c digit
    have here := this ⟨c.toNat, c.toNat_lt⟩
    simp only [UInt8.ofNat_toNat] at here
    exact here digit
  decide +kernel

theorem takeWhile_append_stop {p : UInt8 → Bool} (text : List UInt8) {tail : List UInt8}
    (stops : ∀ c ∈ tail.head?, p c = false) : (text ++ tail).takeWhile p = text.takeWhile p := by
  induction text with
  | nil =>
    cases tail with
    | nil => rfl
    | cons c tail => simp [stops c rfl]
  | cons c text ih =>
    cases taken : p c with
    | false => simp [taken]
    | true => simp [taken, ih]

theorem takeWhile_append_ne_nil {p : UInt8 → Bool} {text : List UInt8}
    (some : text.takeWhile p ≠ []) (tail : List UInt8) : (text ++ tail).takeWhile p ≠ [] := by
  cases text with
  | nil => exact absurd rfl some
  | cons c text =>
    cases taken : p c with
    | false => simp [taken] at some
    | true => simp [taken]

theorem strtoll_digits {digits tail : List UInt8} (some : digits ≠ [])
    (all : ∀ c ∈ digits, isdigit c) (stops : ∀ c ∈ tail.head?, isdigit c = false)
    (small : value digits < 2 ^ 63) :
    strtoll (digits ++ tail) = ((value digits : Int), digits.length) := by
  obtain ⟨first, digits, rfl⟩ := exists_cons_of_ne_nil some
  have first_digit : isdigit first := all first (by simp)
  have no_space : isspace first = false := isspace_of_isdigit first_digit
  have no_sign : first ≠ 43 ∧ first ≠ 45 := by
    constructor <;> rintro rfl <;> exact absurd first_digit (by decide)
  have taken : (first :: digits ++ tail).takeWhile isdigit = first :: digits := by
    rw [takeWhile_append_stop _ stops, takeWhile_eq_self_iff]
    exact all
  simp only [cons_append] at taken
  simp [strtoll, no_space, signs, no_sign, taken, saturate_of_lt small]

theorem strtoll_of_used_eq_zero {text : List UInt8} (nothing : (strtoll text).2 = 0) :
    strtoll text = (0, 0) := by
  simp only [strtoll] at nothing ⊢
  split at nothing
  · rename_i none
    rw [if_pos none]
  · rename_i some
    have := length_pos_iff.mpr some
    omega

variable {text : List UInt8}

theorem dropWhile_append_of_exists {p : UInt8 → Bool} (other : ∃ c ∈ text, p c = false)
    (tail : List UInt8) :
    (text ++ tail).dropWhile p = text.dropWhile p ++ tail ∧
      (text ++ tail).takeWhile p = text.takeWhile p ∧ text.dropWhile p ≠ [] := by
  induction text with
  | nil => simp at other
  | cons c text ih =>
    cases skipped : p c with
    | false => simp [skipped]
    | true =>
      have later : ∃ c ∈ text, p c = false := by
        obtain ⟨d, mem, held⟩ := other
        obtain rfl | mem := mem_cons.mp mem
        · simp [held] at skipped
        · exact ⟨d, mem, held⟩
      simpa [skipped] using ih later

theorem signs_append {rest : List UInt8} (some : rest ≠ []) (tail : List UInt8) :
    signs (rest ++ tail) = signs rest ∧
      (rest ++ tail).drop (signs rest) = rest.drop (signs rest) ++ tail ∧
        (rest ++ tail).head? = rest.head? := by
  obtain ⟨c, rest, rfl⟩ := exists_cons_of_ne_nil some
  refine ⟨rfl, ?_, rfl⟩
  by_cases signed : c = 43 ∨ c = 45 <;> simp [signs, signed]

theorem strtoll_append_of_exists (other : ∃ c ∈ text, isspace c = false) {tail : List UInt8}
    (stops : ∀ c ∈ tail.head?, isdigit c = false) : strtoll (text ++ tail) = strtoll text := by
  obtain ⟨dropped, taken, some⟩ := dropWhile_append_of_exists other tail
  obtain ⟨sign, digits, head⟩ := signs_append some tail
  simp [strtoll, dropped, taken, sign, digits, head, takeWhile_append_stop _ stops]

theorem strtoll_blank (blank : ∀ c ∈ text, isspace c) (some : text ≠ []) (tail : List UInt8) :
    (strtoll (text ++ tail)).2 ≠ text.length := by
  have longer : text.length ≤ ((text ++ tail).takeWhile isspace).length := by
    rw [takeWhile_append_of_pos blank, length_append]
    omega
  have positive := length_pos_iff.mpr some
  simp only [strtoll]
  split
  · simp only
    omega
  · rename_i found
    have := length_pos_iff.mpr found
    omega

theorem strtoll_found_append (tail : List UInt8) (found : (strtoll text).2 ≠ 0) :
    (strtoll (text ++ tail)).2 ≠ 0 := by
  have other : ∃ c ∈ text, isspace c = false := by
    by_contra blank
    have all : ∀ c ∈ text, isspace c = true := by simpa using blank
    have nothing : text.dropWhile isspace = [] := dropWhile_eq_nil_iff.mpr all
    simp [strtoll, nothing] at found
  obtain ⟨dropped, taken, some⟩ := dropWhile_append_of_exists other tail
  obtain ⟨sign, digits, -⟩ := signs_append some tail
  simp only [strtoll, dropped, taken, sign, digits] at found ⊢
  split at found
  · exact absurd rfl found
  · rename_i there
    have longer := takeWhile_append_ne_nil there tail
    rw [if_neg longer]
    have := length_pos_iff.mpr longer
    omega

end CNumber
