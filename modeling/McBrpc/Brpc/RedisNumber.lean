import McBrpc.Library.CNumber

/-!
# The numbers of the redis protocol

An item begins with a type byte and a decimal number that ends with CRLF.  The first 31 bytes are
copied and `strtoll` reads the number.  It sees the bytes behind the CRLF too, which make a
difference only if the number is empty.
-/

namespace McBrpc

open List UInt8 Option Nat
namespace Redis

open CNumber

/-- The errors of `ParseError` that end a parse; `PARSE_ERROR_NOT_ENOUGH_DATA` asks for more. -/
inductive ParseError where
  | tryOthers
  | absolutelyWrong
deriving DecidableEq, Repr

/-- `find("\r\n")`: where the first CRLF begins. -/
def findCrlf : List UInt8 → Option Nat
  | [] => none
  | c :: rest => if c = 13 ∧ rest.head? = some 10 then some 0 else (findCrlf rest).map (· + 1)

/-- The number at the front of the buffer. -/
inductive Number where
  | incomplete
  | invalid
  /-- The value, and the bytes of the type byte, the number and its CRLF. -/
  | parsed (value : Int) (size : Nat)
deriving DecidableEq, Repr

/-- The number behind the type byte, from the copy `intbuf` of the first 31 bytes. -/
def peekNumber (buf : List UInt8) : Number :=
  let intbuf := buf.take 31
  match findCrlf intbuf with
  | none => .incomplete
  | some crlfPos =>
    let (value, used) := strtoll (intbuf.drop 1)
    if 1 + used ≠ crlfPos then .invalid else .parsed value (crlfPos + 2)

/-- `AppendDecimal`: the digits of a number, written from the last to the first into `buf`. -/
def appendDecimal : Nat → Nat → List UInt8
  | 0, _ => []
  | room + 1, d =>
    (if d / 10 = 0 then [] else appendDecimal room (d / 10)) ++ [ofNat (d % 10 + 48)]

/-- `AppendHeader`: a type byte, a number and CRLF. -/
def appendHeader (fc : UInt8) (value : Nat) : List UInt8 :=
  fc :: appendDecimal 24 value ++ [13, 10]

theorem take_drop_append {α : Type*} {buf : List α} {skip size : Nat}
    (inside : skip + size ≤ buf.length) (tail : List α) :
    ((buf ++ tail).drop skip).take size = (buf.drop skip).take size := by
  rw [drop_append_of_le_length (by omega), take_append_of_le_length]
  rw [length_drop]
  omega

theorem findCrlf_append {text : List UInt8} {pos : Nat} (found : findCrlf text = some pos)
    (tail : List UInt8) : findCrlf (text ++ tail) = some pos := by
  induction text generalizing pos with
  | nil => simp [findCrlf] at found
  | cons c text ih =>
    by_cases here : c = 13 ∧ text.head? = some 10
    · have head : (text ++ tail).head? = some 10 := by simp [here.2]
      simpa [findCrlf, here, head] using found
    · simp only [findCrlf, if_neg here, map_eq_some_iff] at found
      obtain ⟨later, found, rfl⟩ := found
      have not_here : ¬(c = 13 ∧ (text ++ tail).head? = some 10) := by
        cases text with
        | nil => simp [findCrlf] at found
        | cons d text => exact here
      rw [cons_append, findCrlf, if_neg not_here, ih found]
      rfl

theorem findCrlf_eq_some {text : List UInt8} {pos : Nat} (found : findCrlf text = some pos) :
    ∃ line tail, text = line ++ 13 :: 10 :: tail ∧ line.length = pos ∧
      findCrlf (line ++ [13, 10]) = some pos := by
  induction text generalizing pos with
  | nil => simp [findCrlf] at found
  | cons c text ih =>
    by_cases here : c = 13 ∧ text.head? = some 10
    · obtain ⟨rfl, head⟩ := here
      obtain ⟨rest, rfl⟩ : ∃ rest, text = 10 :: rest := by
        cases text with
        | nil => simp at head
        | cons d rest => exact ⟨rest, by simpa using head⟩
      simp only [findCrlf, head?_cons, and_self, if_true, some.injEq] at found
      subst found
      exact ⟨[], rest, rfl, rfl, rfl⟩
    · simp only [findCrlf, if_neg here, map_eq_some_iff] at found
      obtain ⟨later, found, rfl⟩ := found
      obtain ⟨line, tail, rfl, length, alone⟩ := ih found
      refine ⟨c :: line, tail, rfl, by simp [length], ?_⟩
      have not_here : ¬(c = 13 ∧ (line ++ [13, 10]).head? = some 10) := by
        cases line with
        | nil => simp
        | cons d line => exact here
      rw [cons_append, findCrlf, if_neg not_here, alone]
      rfl

theorem findCrlf_line {line : List UInt8} (plain : ∀ c ∈ line, c ≠ 13) (tail : List UInt8) :
    findCrlf (line ++ 13 :: 10 :: tail) = some line.length := by
  induction line with
  | nil => simp [findCrlf]
  | cons c line ih =>
    have other : ¬(c = 13 ∧ (line ++ 13 :: 10 :: tail).head? = some 10) :=
      fun both => plain c (by simp) both.1
    rw [cons_append, findCrlf, if_neg other, ih fun d mem => plain d (by simp [mem])]
    rfl

section Peek

/-- What is made of a line and the bytes behind its CRLF. -/
def readLine (line behind : List UInt8) : Number :=
  if (strtoll (line ++ 13 :: 10 :: behind)).2 ≠ line.length then .invalid
  else .parsed (strtoll (line ++ 13 :: 10 :: behind)).1 (line.length + 3)

/-- The type byte and the line are the first bytes up to the first CRLF, within the copy. -/
structure Framed (fc : UInt8) (line : List UInt8) : Prop where
  found : findCrlf (fc :: line ++ [13, 10]) = some (line.length + 1)
  fits : line.length ≤ 28

variable {fc : UInt8} {line buf : List UInt8}

theorem peekNumber_framed (framed : Framed fc line) (tail : List UInt8) :
    peekNumber (fc :: line ++ 13 :: 10 :: tail) = readLine line (tail.take (28 - line.length)) := by
  have fits := framed.fits
  have window : (fc :: line ++ 13 :: 10 :: tail).take 31 =
      (fc :: line ++ [13, 10]) ++ tail.take (28 - line.length) := by
    rw [show fc :: line ++ 13 :: 10 :: tail = (fc :: line ++ [13, 10]) ++ tail by simp,
      take_append, take_of_length_le (by simp; omega)]
    congr 2
    simp only [length_append, length_cons, length_nil]
    omega
  have found := findCrlf_append framed.found (tail.take (28 - line.length))
  simp only [peekNumber, window, found, readLine]
  have rest : ((fc :: line ++ [13, 10]) ++ tail.take (28 - line.length)).drop 1 =
      line ++ 13 :: 10 :: tail.take (28 - line.length) := by simp
  rw [rest]
  simp [add_comm 1]

theorem exists_framed (typed : fc ≠ 13) (full : peekNumber (fc :: buf) ≠ .incomplete) :
    ∃ line tail, fc :: buf = fc :: line ++ 13 :: 10 :: tail ∧ Framed fc line := by
  cases found : findCrlf ((fc :: buf).take 31) with
  | none =>
    simp only [peekNumber, found] at full
    exact absurd rfl full
  | some pos =>
    obtain ⟨text, behind, window, rfl, alone⟩ := findCrlf_eq_some found
    have short : text.length + 2 ≤ 31 := by
      have := congrArg List.length window
      simp only [length_take, length_append, length_cons] at this
      omega
    cases text with
    | nil => exact absurd (by simpa using congrArg List.head? window) typed
    | cons first line =>
      obtain rfl : fc = first := by simpa using congrArg List.head? window
      refine ⟨line, behind ++ (fc :: buf).drop 31, ?_, alone, ?_⟩
      · calc fc :: buf = (fc :: buf).take 31 ++ (fc :: buf).drop 31 := by simp
          _ = fc :: line ++ 13 :: 10 :: (behind ++ (fc :: buf).drop 31) := by
              rw [window]
              simp
      · simpa using short

theorem readLine_eq (some : line ≠ []) (behind other : List UInt8) :
    readLine line behind = readLine line other := by
  by_cases blank : ∀ c ∈ line, isspace c
  · simp [readLine, if_pos (strtoll_blank blank some _)]
  · have text : ∃ c ∈ line, isspace c = false := by simpa using blank
    have stops : ∀ rest : List UInt8, ∀ c ∈ (13 :: 10 :: rest).head?, isdigit c = false := by
      simp [isdigit]
    simp [readLine, strtoll_append_of_exists text (stops _)]

theorem peekNumber_tail (framed : Framed fc line) (some : line ≠ []) (tail other : List UInt8) :
    peekNumber (fc :: line ++ 13 :: 10 :: tail) = peekNumber (fc :: line ++ 13 :: 10 :: other) := by
  rw [peekNumber_framed framed, peekNumber_framed framed]
  exact readLine_eq some _ _

def NonBlank (buf : List UInt8) : Prop := buf.tail.head? ≠ some 13

theorem Framed.ne_nil {tail : List UInt8} (nonblank : NonBlank (fc :: line ++ 13 :: 10 :: tail))
    : line ≠ [] := by
  rintro rfl
  simp [NonBlank] at nonblank

theorem peekNumber_append {tail : List UInt8} (typed : fc ≠ 13)
    (nonblank : NonBlank (fc :: buf ++ tail)) (full : peekNumber (fc :: buf) ≠ .incomplete) :
    peekNumber (fc :: buf ++ tail) = peekNumber (fc :: buf) := by
  obtain ⟨line, behind, bytes, framed⟩ := exists_framed typed full
  rw [bytes] at nonblank ⊢
  rw [append_assoc, cons_append, cons_append] at nonblank ⊢
  exact peekNumber_tail framed (Framed.ne_nil nonblank) _ _

theorem peekNumber_size (typed : fc ≠ 13) {value : Int} {size : Nat}
    (parsed : peekNumber (fc :: buf) = .parsed value size) :
    3 ≤ size ∧ size ≤ (fc :: buf).length := by
  have full : peekNumber (fc :: buf) ≠ .incomplete := by simp [parsed]
  obtain ⟨line, behind, bytes, framed⟩ := exists_framed typed full
  rw [bytes, peekNumber_framed framed, readLine] at parsed
  split at parsed
  · simp at parsed
  · simp only [Number.parsed.injEq] at parsed
    rw [bytes]
    simp only [length_append, length_cons]
    omega

end Peek

theorem length_appendDecimal (room d : Nat) : (appendDecimal room d).length ≤ room := by
  induction room generalizing d with
  | zero => simp [appendDecimal]
  | succ room ih =>
    have shorter := ih (d / 10)
    simp only [appendDecimal]
    split
    · simp
    · simpa using shorter

theorem isdigit_ofNat {d : Nat} : isdigit (ofNat (d % 10 + 48)) ∧
    (ofNat (d % 10 + 48)).toNat = d % 10 + 48 := by
  have exactly : (ofNat (d % 10 + 48)).toNat = d % 10 + 48 := by
    rw [toNat_ofNat']
    omega
  refine ⟨?_, exactly⟩
  simp only [isdigit, exactly, Bool.and_eq_true, decide_eq_true_eq]
  omega

theorem isdigit_appendDecimal (room d : Nat) : ∀ c ∈ appendDecimal room d, isdigit c := by
  induction room generalizing d with
  | zero => simp [appendDecimal]
  | succ room ih =>
    intro c mem
    simp only [appendDecimal, mem_append, mem_singleton] at mem
    obtain mem | rfl := mem
    · split at mem
      · simp at mem
      · exact ih _ c mem
    · exact isdigit_ofNat.1

theorem value_appendDecimal {room d : Nat} (small : d < 10 ^ room) :
    value (appendDecimal room d) = d := by
  induction room generalizing d with
  | zero =>
    obtain rfl : d = 0 := by simpa using small
    rfl
  | succ room ih =>
    rw [appendDecimal, value_append_singleton, isdigit_ofNat.2]
    have next : d / 10 < 10 ^ room := Nat.div_lt_of_lt_mul (by rwa [Nat.pow_succ'] at small)
    split
    · simp only [value, foldl_nil]
      omega
    · rw [ih next]
      omega

theorem peekNumber_appendHeader {fc : UInt8} (typed : fc ≠ 13) {n : Nat} (small : n < 2 ^ 63)
    (tail : List UInt8) :
    peekNumber (appendHeader fc n ++ tail) = .parsed n (appendHeader fc n).length := by
  have digits := isdigit_appendDecimal 24 n
  have some : appendDecimal 24 n ≠ [] := by simp [appendDecimal]
  have number : value (appendDecimal 24 n) = n :=
    value_appendDecimal (lt_trans small (by decide))
  have plain : ∀ c ∈ fc :: appendDecimal 24 n, c ≠ 13 := by
    intro c mem
    obtain rfl | mem := mem_cons.mp mem
    · exact typed
    · rintro rfl
      exact absurd (digits _ mem) (by decide)
  have framed : Framed fc (appendDecimal 24 n) :=
    ⟨findCrlf_line plain [], le_trans (length_appendDecimal 24 n) (by decide)⟩
  have shape : appendHeader fc n ++ tail = fc :: appendDecimal 24 n ++ 13 :: 10 :: tail := by
    simp [appendHeader]
  have read : ∀ behind, strtoll (appendDecimal 24 n ++ 13 :: 10 :: behind) =
      ((n : Int), (appendDecimal 24 n).length) := by
    intro behind
    have stops : ∀ c ∈ (13 :: 10 :: behind : List UInt8).head?, isdigit c = false := by
      simp [isdigit]
    have exactly := strtoll_digits some digits stops (number.symm ▸ small)
    rwa [number] at exactly
  rw [shape, peekNumber_framed framed, readLine, read]
  simp [appendHeader]

theorem nonBlank_appendHeader (fc : UInt8) (n : Nat) (tail : List UInt8) :
    NonBlank (appendHeader fc n ++ tail) := by
  have some : appendDecimal 24 n ≠ [] := by simp [appendDecimal]
  obtain ⟨first, rest, digits⟩ := exists_cons_of_ne_nil some
  have digit := isdigit_appendDecimal 24 n first (by simp [digits])
  simp only [NonBlank, appendHeader, digits]
  rintro equal
  obtain rfl : first = 13 := by simpa using equal
  exact absurd digit (by decide)

end Redis
end McBrpc
