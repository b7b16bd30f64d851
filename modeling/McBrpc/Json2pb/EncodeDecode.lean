import Mathlib.Data.List.Infix
import Mathlib.Tactic.NormNum

/-!
# JSON keys as protobuf field names

`encode_name` writes a byte that an identifier cannot hold as `_Zxxx_`, `xxx` being its decimal
code; `decode_name` replaces each `_Zxxx_` by the byte with that code.  Nothing escapes the escape,
and a byte above 127 is a negative `char`.  Positions are natural numbers here: this is the
behaviour on names whose encoding is shorter than 2 GiB.
-/

namespace McBrpc

open List
namespace Json2pb

/-- `isdigit` in the C locale. -/
def isdigit (c : UInt8) : Bool := 48 ≤ c.toNat && c.toNat ≤ 57

/-- `isalnum` in the C locale: false for every `char` outside ASCII. -/
def isalnum (c : UInt8) : Bool :=
  isdigit c || (65 ≤ c.toNat && c.toNat ≤ 90) || (97 ≤ c.toNat && c.toNat ≤ 122)

/-- The `char` held by a byte: signed, so a byte above 127 is negative. -/
def charValue (c : UInt8) : Int := if c.toNat < 128 then c.toNat else (c.toNat : Int) - 256

/-- Storing an `int` in a `char`. -/
def toChar (n : Int) : UInt8 := UInt8.ofNat (n % 256).toNat

/-- The pattern at the beginning of the text: the code written in `_Zxxx_`, `none` for `-1`. -/
def matchPattern : List UInt8 → Option Nat
  | c₀ :: c₁ :: c₂ :: c₃ :: c₄ :: c₅ :: _ =>
    if c₀ ≠ 95 ∨ c₁ ≠ 90 ∨ c₅ ≠ 95 ∨ ¬isdigit c₂ ∨ ¬isdigit c₃ ∨ ¬isdigit c₄ then none
    else
      let sum := (c₂.toNat - 48) * 100 + (c₃.toNat - 48) * 10 + (c₄.toNat - 48)
      if sum < 256 then some sum else none
  | _ => none

/-- The six bytes `encode_name` writes for a special byte, with the source's truncating
divisions of a signed `char`. -/
def pattern (c : UInt8) : List UInt8 :=
  let value := charValue c
  let first := value.tdiv 100
  let second := (value - first * 100).tdiv 10
  let third := value - first * 100 - second * 10
  [95, 90, toChar (first + 48), toChar (second + 48), toChar (third + 48), 95]

/-- The bytes `encode_name` replaces; a digit only at the beginning of the name. -/
def isSpecial (atBegin : Bool) (c : UInt8) : Bool :=
  (!isalnum c && c != 95) || (atBegin && isdigit c)

/-- The loop of `encode_name` on the rest of the content: whether something is converted, and the
text written. -/
def encodeLoop (atBegin : Bool) : List UInt8 → Bool × List UInt8
  | [] => (false, [])
  | c :: rest =>
    let (convert, encoded) := encodeLoop false rest
    if isSpecial atBegin c then (true, pattern c ++ encoded) else (convert, c :: encoded)

/-- `encode_name`: `none` when it returns false and leaves its output alone. -/
def encodeName (content : List UInt8) : Option (List UInt8) :=
  let (convert, encoded) := encodeLoop true content
  if convert then some encoded else none

/-- The loop of `decode_name` on the rest of the content; `skip` counts the bytes of a matched
pattern that the iterator still jumps over. -/
def decodeLoop : Nat → List UInt8 → Bool × List UInt8
  | _, [] => (false, [])
  | skip + 1, _ :: rest => decodeLoop skip rest
  | 0, c :: rest =>
    match matchPattern (c :: rest) with
    | some val => (true, UInt8.ofNat val :: (decodeLoop 5 rest).2)
    | none => ((decodeLoop 0 rest).1, c :: (decodeLoop 0 rest).2)

/-- `decode_name`: `none` when it returns false and leaves its output alone. -/
def decodeName (content : List UInt8) : Option (List UInt8) :=
  let (convert, decoded) := decodeLoop 0 content
  if convert then some decoded else none

/-- The field name used for a key: its encoding, or the key where `encode_name` returns false. -/
def fieldName (key : List UInt8) : List UInt8 := (encodeName key).getD key

def keyOf (name : List UInt8) : List UInt8 := (decodeName name).getD name

def isIdentifierByte (c : UInt8) : Bool := isalnum c || c == 95

def LegalIdentifier (name : List UInt8) : Prop :=
  name ≠ [] ∧ (∀ c ∈ name, isIdentifierByte c) ∧ ∀ c ∈ name.head?, ¬isdigit c

instance : DecidablePred LegalIdentifier := fun _ => inferInstanceAs (Decidable (_ ∧ _ ∧ _))

/-- A text that starts with what reads as an escape once its sixth byte is encoded: `_Z`, three
digits of a code below 256, then an underscore or a byte whose own escape starts with one. -/
def LookAlike : List UInt8 → Prop
  | c₀ :: c₁ :: c₂ :: c₃ :: c₄ :: c₅ :: _ =>
    (matchPattern [c₀, c₁, c₂, c₃, c₄, 95]).isSome ∧ (c₅ = 95 ∨ isSpecial false c₅)
  | _ => False

/-- The keys that the encoding can represent: ASCII only, and no escape look-alike anywhere. -/
def Encodable (key : List UInt8) : Prop :=
  (∀ c ∈ key, c.toNat < 128) ∧ ∀ rest, rest <:+ key → ¬LookAlike rest

variable {c c₂ c₃ c₄ : UInt8} {text rest content key : List UInt8} {val : Nat} {atBegin : Bool}

theorem pattern_not_identifier (negative : 128 ≤ c.toNat) :
    ∃ b ∈ pattern c, ¬isIdentifierByte b := by
  have byte : ∀ n : Fin 256, 128 ≤ n.val →
      ∃ b ∈ pattern (UInt8.ofNat n), ¬isIdentifierByte b := by decide +kernel
  have := byte ⟨c.toNat, c.toNat_lt⟩ negative
  simpa using this

theorem pattern_identifier {b : UInt8} (ascii : c.toNat < 128) (mem : b ∈ pattern c) :
    isIdentifierByte b := by
  have byte : ∀ n : Fin 128, ∀ b ∈ pattern (UInt8.ofNat n), isIdentifierByte b := by
    decide +kernel
  exact byte ⟨c.toNat, ascii⟩ b (by simpa using mem)

theorem isSpecial_underscore (atBegin : Bool) : isSpecial atBegin 95 = false := by
  cases atBegin <;> decide

theorem isSpecial_of_negative (negative : 128 ≤ c.toNat) : isSpecial false c = true := by
  have byte : ∀ n : Fin 256, 128 ≤ n.val → isSpecial false (UInt8.ofNat n) = true := by
    decide +kernel
  simpa using byte ⟨c.toNat, c.toNat_lt⟩ negative

theorem ne_underscore_of_isdigit (digit : isdigit c = true) : c ≠ 95 := by
  rintro rfl
  simp [isdigit] at digit

theorem isSpecial_false_iff (atBegin : Bool) (c : UInt8) : isSpecial atBegin c = false ↔
      isIdentifierByte c = true ∧ (atBegin = true → isdigit c = false) := by
  simp only [isSpecial, isIdentifierByte, Bool.or_eq_false_iff, Bool.and_eq_false_imp]
  cases isalnum c <;> cases atBegin <;> simp

theorem matchPattern_eq_some (found : matchPattern text = some val) :
    ∃ c₂ c₃ c₄ rest, text = 95 :: 90 :: c₂ :: c₃ :: c₄ :: 95 :: rest ∧
      isdigit c₂ ∧ isdigit c₃ ∧ isdigit c₄ ∧
      val = (c₂.toNat - 48) * 100 + (c₃.toNat - 48) * 10 + (c₄.toNat - 48) ∧ val < 256 := by
  match text with
  | c₀ :: c₁ :: c₂ :: c₃ :: c₄ :: c₅ :: rest =>
    simp only [matchPattern] at found
    split at found
    · cases found
    · rename_i shape
      simp only [not_or, not_not] at shape
      obtain ⟨rfl, rfl, rfl, d₂, d₃, d₄⟩ := shape
      split at found
      · rename_i small
        obtain rfl : _ = val := by simpa using found
        exact ⟨c₂, c₃, c₄, rest, rfl, d₂, d₃, d₄, rfl, small⟩
      · cases found
  | [] | [_] | [_, _] | [_, _, _] | [_, _, _, _] | [_, _, _, _, _] => simp [matchPattern] at found

theorem matchPattern_of_ne (other : c ≠ 95) : matchPattern (c :: rest) = none := by
  by_contra found
  obtain ⟨val, found⟩ := Option.ne_none_iff_exists'.mp found
  obtain ⟨c₂, c₃, c₄, tail, shape, _⟩ := matchPattern_eq_some found
  exact other (by simpa using congrArg List.head? shape)

theorem matchPattern_append (c₀ c₁ c₂ c₃ c₄ c₅ : UInt8) (rest : List UInt8) :
    matchPattern (c₀ :: c₁ :: c₂ :: c₃ :: c₄ :: c₅ :: rest) =
      matchPattern [c₀, c₁, c₂, c₃, c₄, c₅] := rfl

theorem matchPattern_pattern (ascii : c.toNat < 128) (rest : List UInt8) :
    matchPattern (pattern c ++ rest) = some c.toNat := by
  have byte : ∀ n : Fin 128, matchPattern (pattern (UInt8.ofNat n)) = some n.val := by
    decide +kernel
  have here : matchPattern (pattern c) = some c.toNat := by
    simpa using byte ⟨c.toNat, ascii⟩
  simpa only [pattern, cons_append, nil_append, matchPattern_append] using here

@[simp]
theorem encodeLoop_nil (atBegin : Bool) : encodeLoop atBegin [] = (false, []) := rfl

theorem encodeLoop_special (rest : List UInt8) (special : isSpecial atBegin c = true) :
    encodeLoop atBegin (c :: rest) = (true, pattern c ++ (encodeLoop false rest).2) := by
  simp [encodeLoop, special]

theorem encodeLoop_literal (rest : List UInt8) (literal : isSpecial atBegin c = false) :
    encodeLoop atBegin (c :: rest) =
      ((encodeLoop false rest).1, c :: (encodeLoop false rest).2) := by
  simp [encodeLoop, literal]

theorem encodeLoop_unchanged (same : (encodeLoop atBegin content).1 = false) :
    (encodeLoop atBegin content).2 = content := by
  induction content generalizing atBegin with
  | nil => rfl
  | cons c rest ih =>
    cases special : isSpecial atBegin c with
    | true => simp [encodeLoop_special rest special] at same
    | false =>
      rw [encodeLoop_literal rest special] at same ⊢
      simp [ih same]

theorem fieldName_eq (key : List UInt8) : fieldName key = (encodeLoop true key).2 := by
  cases convert : (encodeLoop true key).1 with
  | true => simp [fieldName, encodeName, convert]
  | false => simp [fieldName, encodeName, convert, encodeLoop_unchanged convert]

theorem decodeLoop_skip (skip : Nat) (content : List UInt8) :
    decodeLoop skip content = decodeLoop 0 (content.drop skip) := by
  induction content generalizing skip with
  | nil => simp [decodeLoop]
  | cons c rest ih =>
    cases skip with
    | zero => rfl
    | succ skip => simpa [decodeLoop] using ih skip

theorem decodeLoop_none (unmatched : matchPattern (c :: rest) = none) :
    decodeLoop 0 (c :: rest) = ((decodeLoop 0 rest).1, c :: (decodeLoop 0 rest).2) := by
  rw [decodeLoop, unmatched]

theorem decodeLoop_some (matched : matchPattern (c :: rest) = some val) :
    decodeLoop 0 (c :: rest) = (true, UInt8.ofNat val :: (decodeLoop 0 (rest.drop 5)).2) := by
  rw [decodeLoop, matched, decodeLoop_skip]

theorem decodeLoop_unchanged (same : (decodeLoop 0 content).1 = false)
    : (decodeLoop 0 content).2 = content := by
  induction content with
  | nil => rfl
  | cons c rest ih =>
    cases found : matchPattern (c :: rest) with
    | some val => simp [decodeLoop_some found] at same
    | none =>
      rw [decodeLoop_none found] at same ⊢
      simp [ih same]

theorem keyOf_eq (name : List UInt8) : keyOf name = (decodeLoop 0 name).2 := by
  cases convert : (decodeLoop 0 name).1 with
  | true => simp [keyOf, decodeName, convert]
  | false => simp [keyOf, decodeName, convert, decodeLoop_unchanged convert]

theorem decodeLoop_pattern (ascii : c.toNat < 128) (rest : List UInt8) :
    (decodeLoop 0 (pattern c ++ rest)).2 = c :: (decodeLoop 0 rest).2 := by
  have matched := matchPattern_pattern ascii rest
  simp only [pattern, cons_append, nil_append] at matched ⊢
  rw [decodeLoop_some matched]
  simp

theorem decodeLoop_literal (rest : List UInt8) (other : c ≠ 95) :
    (decodeLoop 0 (c :: rest)).2 = c :: (decodeLoop 0 rest).2 := by
  rw [decodeLoop_none (matchPattern_of_ne other)]

theorem encodeLoop_eq_cons {tail : List UInt8} (shape : (encodeLoop false content).2 = c :: tail)
    (other : c ≠ 95) : ∃ rest, content = c :: rest ∧ tail = (encodeLoop false rest).2 := by
  cases content with
  | nil => simp at shape
  | cons head rest =>
    cases special : isSpecial false head with
    | true =>
      rw [encodeLoop_special rest special] at shape
      simp only [pattern, cons_append, List.cons.injEq] at shape
      exact absurd shape.1.symm other
    | false =>
      rw [encodeLoop_literal rest special] at shape
      obtain ⟨rfl, rfl⟩ := List.cons.inj shape
      exact ⟨rest, rfl, rfl⟩

def codeOf (c₂ c₃ c₄ : UInt8) : Nat :=
  (c₂.toNat - 48) * 100 + (c₃.toNat - 48) * 10 + (c₄.toNat - 48)

theorem matchPattern_digits (rest : List UInt8) (d₂ : isdigit c₂) (d₃ : isdigit c₃)
    (d₄ : isdigit c₄) (small : codeOf c₂ c₃ c₄ < 256) :
    matchPattern (95 :: 90 :: c₂ :: c₃ :: c₄ :: 95 :: rest) = some (codeOf c₂ c₃ c₄) := by
  simp only [codeOf] at small ⊢
  simp [matchPattern, d₂, d₃, d₄, small]

theorem lookAlike_iff (text : List UInt8) : LookAlike text ↔
      ∃ c₂ c₃ c₄ c₅ rest, text = 95 :: 90 :: c₂ :: c₃ :: c₄ :: c₅ :: rest ∧
        isdigit c₂ ∧ isdigit c₃ ∧ isdigit c₄ ∧ codeOf c₂ c₃ c₄ < 256 ∧
        (c₅ = 95 ∨ isSpecial false c₅ = true) := by
  constructor
  · intro alike
    match text with
    | c₀ :: c₁ :: c₂ :: c₃ :: c₄ :: c₅ :: rest =>
      obtain ⟨found, sixth⟩ := alike
      obtain ⟨val, found⟩ := Option.isSome_iff_exists.mp found
      obtain ⟨_, _, _, _, shape, d₂, d₃, d₄, rfl, small⟩ := matchPattern_eq_some found
      obtain ⟨rfl, rfl, rfl, rfl, rfl, -⟩ := shape
      exact ⟨_, _, _, c₅, rest, rfl, d₂, d₃, d₄, small, sixth⟩
    | [] | [_] | [_, _] | [_, _, _] | [_, _, _, _] | [_, _, _, _, _] => exact alike.elim
  · rintro ⟨c₂, c₃, c₄, c₅, rest, rfl, d₂, d₃, d₄, small, sixth⟩
    refine ⟨?_, sixth⟩
    rw [matchPattern_digits [] d₂ d₃ d₄ small]
    rfl

theorem lookAlike_of_matchPattern
    (found : matchPattern (95 :: (encodeLoop false rest).2) = some val) :
    LookAlike (95 :: rest) := by
  obtain ⟨c₂, c₃, c₄, tail, shape, d₂, d₃, d₄, rfl, small⟩ := matchPattern_eq_some found
  -- the first four bytes behind the underscore are no underscores, hence literal
  obtain ⟨rest₁, rfl, shape₁⟩ := encodeLoop_eq_cons (List.cons.inj shape).2 (by decide)
  obtain ⟨rest₂, rfl, shape₂⟩ := encodeLoop_eq_cons shape₁.symm (ne_underscore_of_isdigit d₂)
  obtain ⟨rest₃, rfl, shape₃⟩ := encodeLoop_eq_cons shape₂.symm (ne_underscore_of_isdigit d₃)
  obtain ⟨rest₄, rfl, shape₄⟩ := encodeLoop_eq_cons shape₃.symm (ne_underscore_of_isdigit d₄)
  cases rest₄ with
  | nil => simp at shape₄
  | cons c₅ rest₅ =>
    refine (lookAlike_iff _).mpr ⟨c₂, c₃, c₄, c₅, rest₅, rfl, d₂, d₃, d₄, small, ?_⟩
    cases special : isSpecial false c₅ with
    | true => exact .inr rfl
    | false =>
      rw [encodeLoop_literal rest₅ special] at shape₄
      exact .inl (List.cons.inj shape₄).1.symm

theorem isSpecial_of_isdigit (digit : isdigit c = true) : isSpecial false c = false := by
  simp [isSpecial, isalnum, digit]

theorem encodeLoop_lookAlike (rest : List UInt8) (d₂ : isdigit c₂) (d₃ : isdigit c₃)
    (d₄ : isdigit c₄) :
    (encodeLoop false (95 :: 90 :: c₂ :: c₃ :: c₄ :: rest)).2 =
      95 :: 90 :: c₂ :: c₃ :: c₄ :: (encodeLoop false rest).2 := by
  rw [encodeLoop_literal _ (isSpecial_underscore false), encodeLoop_literal _ (by decide),
    encodeLoop_literal _ (isSpecial_of_isdigit d₂), encodeLoop_literal _ (isSpecial_of_isdigit d₃),
    encodeLoop_literal _ (isSpecial_of_isdigit d₄)]

theorem exists_pattern_digits (ascii : c.toNat < 128) :
    ∃ x₂ x₃ x₄, pattern c = [95, 90, x₂, x₃, x₄, 95] ∧ isdigit x₂ ∧ isdigit x₃ ∧ isdigit x₄ ∧
      codeOf x₂ x₃ x₄ = c.toNat := by
  have matched : matchPattern (pattern c) = some c.toNat := by
    simpa using matchPattern_pattern ascii []
  obtain ⟨x₂, x₃, x₄, rest, shape, d₂, d₃, d₄, code, -⟩ := matchPattern_eq_some matched
  have length : rest = [] := by
    have lengths := congrArg List.length shape
    simpa [pattern] using lengths
  exact ⟨x₂, x₃, x₄, by rw [shape, length], d₂, d₃, d₄, code.symm⟩

theorem decodeLoop_lookAlike_underscore (rest : List UInt8) (d₂ : isdigit c₂) (d₃ : isdigit c₃)
    (d₄ : isdigit c₄) (small : codeOf c₂ c₃ c₄ < 256) :
    (decodeLoop 0 (encodeLoop false (95 :: 90 :: c₂ :: c₃ :: c₄ :: 95 :: rest)).2).2 =
      UInt8.ofNat (codeOf c₂ c₃ c₄) :: (decodeLoop 0 (encodeLoop false rest).2).2 := by
  rw [encodeLoop_lookAlike _ d₂ d₃ d₄, encodeLoop_literal rest (isSpecial_underscore false),
    decodeLoop_some (matchPattern_digits _ d₂ d₃ d₄ small)]
  rfl

theorem decodeLoop_lookAlike_special {c₅ x₂ x₃ x₄ : UInt8} (rest : List UInt8) (d₂ : isdigit c₂)
    (d₃ : isdigit c₃) (d₄ : isdigit c₄) (small : codeOf c₂ c₃ c₄ < 256)
    (special : isSpecial false c₅ = true) (escape : pattern c₅ = [95, 90, x₂, x₃, x₄, 95])
    (e₂ : isdigit x₂) (e₃ : isdigit x₃) (e₄ : isdigit x₄) :
    (decodeLoop 0 (encodeLoop false (95 :: 90 :: c₂ :: c₃ :: c₄ :: c₅ :: rest)).2).2 =
      UInt8.ofNat (codeOf c₂ c₃ c₄) :: 90 :: x₂ :: x₃ :: x₄ ::
        (decodeLoop 0 (encodeLoop false (95 :: rest)).2).2 := by
  rw [encodeLoop_lookAlike _ d₂ d₃ d₄, encodeLoop_special rest special, escape]
  simp only [cons_append, nil_append]
  rw [decodeLoop_some (matchPattern_digits _ d₂ d₃ d₄ small)]
  simp only [drop_succ_cons, drop_zero]
  rw [decodeLoop_literal _ (by decide), decodeLoop_literal _ (ne_underscore_of_isdigit e₂),
    decodeLoop_literal _ (ne_underscore_of_isdigit e₃),
    decodeLoop_literal _ (ne_underscore_of_isdigit e₄),
    encodeLoop_literal rest (isSpecial_underscore false)]

section

variable (ascii : ∀ c ∈ text, c.toNat < 128)
include ascii

/-- Decoding the encoding of an ASCII text never makes it longer. -/
theorem length_decodeLoop_encodeLoop :
    (decodeLoop 0 (encodeLoop false text).2).2.length ≤ text.length := by
  induction size : text.length using Nat.strong_induction_on generalizing text with
  | _ size ih =>
  subst size
  cases text with
  | nil => simp [decodeLoop]
  | cons c rest =>
    have asciiRest : ∀ b ∈ rest, b.toNat < 128 := fun b mem => ascii b (by simp [mem])
    have shorter := ih rest.length (by simp) asciiRest rfl
    cases special : isSpecial false c with
    | true =>
      rw [encodeLoop_special rest special, decodeLoop_pattern (ascii c (by simp))]
      simpa using shorter
    | false =>
      cases found : matchPattern (c :: (encodeLoop false rest).2) with
      | none =>
        rw [encodeLoop_literal rest special, decodeLoop_none found]
        simpa using shorter
      | some val =>
        obtain rfl : c = 95 := by
          by_contra other
          rw [matchPattern_of_ne other] at found
          cases found
        obtain ⟨c₂, c₃, c₄, c₅, rest, shape, d₂, d₃, d₄, small, sixth⟩ :=
          (lookAlike_iff _).mp (lookAlike_of_matchPattern found)
        rw [shape] at ascii ih ⊢
        rcases sixth with rfl | sixth
        · have behind := ih rest.length (by simp; omega)
            (fun b mem => ascii b (by simp [mem])) rfl
          rw [decodeLoop_lookAlike_underscore rest d₂ d₃ d₄ small]
          simp only [length_cons]
          omega
        · obtain ⟨x₂, x₃, x₄, escape, e₂, e₃, e₄, -⟩ :=
            exists_pattern_digits (ascii c₅ (by simp))
          have behind := ih (95 :: rest).length (by simp) (by
            intro b mem
            rcases mem_cons.mp mem with rfl | mem
            · decide
            · exact ascii b (by simp [mem])) rfl
          rw [decodeLoop_lookAlike_special rest d₂ d₃ d₄ small sixth escape e₂ e₃ e₄]
          simp only [length_cons] at behind ⊢
          omega

theorem decodeLoop_ne_of_lookAlike (alike : LookAlike text)
    : (decodeLoop 0 (encodeLoop false text).2).2 ≠ text := by
  intro readBack
  obtain ⟨c₂, c₃, c₄, c₅, rest, rfl, d₂, d₃, d₄, small, sixth⟩ := (lookAlike_iff _).mp alike
  rcases sixth with rfl | sixth
  · have short : (decodeLoop 0 (encodeLoop false rest).2).2.length ≤ rest.length :=
      length_decodeLoop_encodeLoop fun b mem => ascii b (by simp [mem])
    rw [decodeLoop_lookAlike_underscore rest d₂ d₃ d₄ small] at readBack
    have lengths := congrArg List.length readBack
    simp only [length_cons] at lengths
    omega
  · obtain ⟨x₂, x₃, x₄, escape, e₂, e₃, e₄, code⟩ :=
      exists_pattern_digits (ascii c₅ (by simp))
    rw [decodeLoop_lookAlike_special rest d₂ d₃ d₄ small sixth escape e₂ e₃ e₄] at readBack
    simp only [List.cons.injEq, true_and] at readBack
    obtain ⟨first, rfl, rfl, rfl, -⟩ := readBack
    -- the digits read are those of the sixth byte, and they are the code of an underscore
    have underscore : c₅ = 95 := by
      rw [← UInt8.toNat_inj, ← code, ← Nat.mod_eq_of_lt small, ← UInt8.toNat_ofNat', first]
    rw [underscore, isSpecial_underscore] at sixth
    cases sixth

theorem decodeLoop_encodeLoop_iff : (decodeLoop 0 (encodeLoop false text).2).2 = text ↔
      ∀ rest, rest <:+ text → ¬LookAlike rest := by
  induction text with
  | nil => simp [decodeLoop, LookAlike]
  | cons c rest ih =>
    have ihRest := ih (fun b mem => ascii b (by simp [mem]))
    have split : (∀ suffix, suffix <:+ c :: rest → ¬LookAlike suffix) ↔
        ¬LookAlike (c :: rest) ∧ ∀ suffix, suffix <:+ rest → ¬LookAlike suffix := by
      simp only [suffix_cons_iff]
      grind
    rw [split, ← ihRest]
    by_cases alike : LookAlike (c :: rest)
    · simpa [alike] using decodeLoop_ne_of_lookAlike ascii alike
    · have readOn : (decodeLoop 0 (encodeLoop false (c :: rest)).2).2 =
          c :: (decodeLoop 0 (encodeLoop false rest).2).2 := by
        cases special : isSpecial false c with
        | true => rw [encodeLoop_special rest special, decodeLoop_pattern (ascii c (by simp))]
        | false =>
          rw [encodeLoop_literal rest special]
          by_cases underscore : c = 95
          · subst underscore
            cases found : matchPattern (95 :: (encodeLoop false rest).2) with
            | none => rw [decodeLoop_none found]
            | some val => exact absurd (lookAlike_of_matchPattern found) alike
          · rw [decodeLoop_literal _ underscore]
      simp [readOn, alike]

theorem decodeLoop_encodeLoop_begin :
    (decodeLoop 0 (encodeLoop true text).2).2 = (decodeLoop 0 (encodeLoop false text).2).2 := by
  cases text with
  | nil => rfl
  | cons c rest =>
    cases special : isSpecial true c with
    | true =>
      rw [encodeLoop_special rest special, decodeLoop_pattern (ascii c (by simp))]
      cases inside : isSpecial false c with
      | true => rw [encodeLoop_special rest inside, decodeLoop_pattern (ascii c (by simp))]
      | false =>
        have digit : isdigit c = true := by
          simp only [isSpecial, Bool.false_and, Bool.or_false] at special inside
          simpa [inside] using special
        rw [encodeLoop_literal rest inside, decodeLoop_literal _ (ne_underscore_of_isdigit digit)]
    | false =>
      have inside : isSpecial false c = false :=
        (isSpecial_false_iff _ _).mpr ⟨((isSpecial_false_iff _ _).mp special).1, by simp⟩
      rw [encodeLoop_literal rest special, encodeLoop_literal rest inside]

end

theorem keyOf_fieldName_iff (ascii : ∀ c ∈ key, c.toNat < 128) :
    keyOf (fieldName key) = key ↔ Encodable key := by
  rw [fieldName_eq, keyOf_eq, decodeLoop_encodeLoop_begin ascii, decodeLoop_encodeLoop_iff ascii]
  exact ⟨fun free => ⟨ascii, free⟩, fun encodable => encodable.2⟩

theorem encodeLoop_identifier_iff (atBegin : Bool) (text : List UInt8) :
    (∀ b ∈ (encodeLoop atBegin text).2, isIdentifierByte b) ↔ ∀ c ∈ text, c.toNat < 128 := by
  induction text generalizing atBegin with
  | nil => simp
  | cons c rest ih =>
    cases special : isSpecial atBegin c with
    | true =>
      have here : (∀ b ∈ pattern c, isIdentifierByte b) ↔ c.toNat < 128 := by
        constructor
        · intro identifier
          by_contra negative
          obtain ⟨b, mem, other⟩ := pattern_not_identifier (Nat.le_of_not_lt negative)
          exact other (identifier b mem)
        · exact fun ascii b mem => pattern_identifier ascii mem
      rw [encodeLoop_special rest special, forall_mem_append, here, ih false, forall_mem_cons]
    | false =>
      obtain ⟨identifier, -⟩ := (isSpecial_false_iff _ _).mp special
      have ascii : c.toNat < 128 := by
        by_contra negative
        have refused := isSpecial_of_negative (Nat.le_of_not_lt negative)
        simp [isSpecial, isIdentifierByte] at refused identifier
        grind
      rw [encodeLoop_literal rest special, forall_mem_cons, forall_mem_cons, ih false]
      simp [identifier, ascii]

theorem head_encodeLoop (c : UInt8) (rest : List UInt8) :
    ∀ b ∈ (encodeLoop true (c :: rest)).2.head?, isdigit b = false := by
  cases special : isSpecial true c with
  | true =>
    rw [encodeLoop_special rest special]
    simp [pattern, isdigit]
  | false =>
    rw [encodeLoop_literal rest special]
    simpa using ((isSpecial_false_iff _ _).mp special).2 rfl

theorem legalIdentifier_fieldName_iff (ne : key ≠ []) :
    LegalIdentifier (fieldName key) ↔ ∀ c ∈ key, c.toNat < 128 := by
  rw [fieldName_eq, ← encodeLoop_identifier_iff true key]
  obtain ⟨c, rest, rfl⟩ := exists_cons_of_ne_nil ne
  have written : (encodeLoop true (c :: rest)).2 ≠ [] := by
    cases special : isSpecial true c with
    | true => simp [encodeLoop_special rest special, pattern]
    | false => simp [encodeLoop_literal rest special]
  constructor
  · exact fun legal => legal.2.1
  · refine fun identifier => ⟨written, identifier, ?_⟩
    simpa using head_encodeLoop c rest

theorem encodeLoop_fst_eq_false_iff (atBegin : Bool) (text : List UInt8) :
    (encodeLoop atBegin text).1 = false ↔
      (∀ c ∈ text, isIdentifierByte c) ∧
        (atBegin = true → ∀ c ∈ text.head?, isdigit c = false) := by
  induction text generalizing atBegin with
  | nil => simp
  | cons c rest ih =>
    cases special : isSpecial atBegin c with
    | true =>
      have notIdentifier := mt (isSpecial_false_iff atBegin c).mpr (by simp [special])
      rw [encodeLoop_special rest special]
      simp only [Bool.true_eq_false, forall_mem_cons, head?_cons, Option.mem_some_iff,
        forall_eq', false_iff]
      exact fun every => notIdentifier ⟨every.1.1, every.2⟩
    | false =>
      obtain ⟨identifier, notDigit⟩ := (isSpecial_false_iff _ _).mp special
      rw [encodeLoop_literal rest special, ih false]
      simpa [identifier] using fun _ => notDigit

theorem encodeName_eq_none_iff (ne : key ≠ []) : encodeName key = none ↔ LegalIdentifier key := by
  have same : encodeName key = none ↔ (encodeLoop true key).1 = false := by
    simp [encodeName]
  rw [same, encodeLoop_fst_eq_false_iff]
  simp [LegalIdentifier, ne]

/-- A key gets a legal field name that decodes to it exactly when it is ASCII without an escape
look-alike; among such keys the field names are distinct.  `encode_name` leaves exactly the keys
that are identifiers already. -/
theorem fieldName_spec (nonempty : key ≠ []) : (encodeName key = none ↔ LegalIdentifier key) ∧
    (LegalIdentifier (fieldName key) ∧ keyOf (fieldName key) = key ↔ Encodable key) ∧
    (Encodable key → ∀ other, Encodable other → fieldName key = fieldName other → key = other) := by
  refine ⟨encodeName_eq_none_iff nonempty, ?_, ?_⟩
  · rw [legalIdentifier_fieldName_iff nonempty]
    constructor
    · rintro ⟨ascii, readBack⟩
      exact (keyOf_fieldName_iff ascii).mp readBack
    · exact fun encodable => ⟨encodable.1, (keyOf_fieldName_iff encodable.1).mpr encodable⟩
  · intro encodable other other_encodable same
    rw [← (keyOf_fieldName_iff encodable.1).mpr encodable, same,
      (keyOf_fieldName_iff other_encodable.1).mpr other_encodable]

/-- The keys `a-b` and `a_b`: both come back, and they have different field names. -/
theorem fieldName_spec_dash : LegalIdentifier (fieldName [97, 45, 98]) ∧
      keyOf (fieldName [97, 45, 98]) = [97, 45, 98] ∧
      encodeName [97, 95, 98] = none ∧
      fieldName [97, 45, 98] ≠ fieldName [97, 95, 98] := by
  have dash : Encodable [97, 45, 98] := (keyOf_fieldName_iff (by simp)).mp (by decide)
  have plain : Encodable [97, 95, 98] := (keyOf_fieldName_iff (by simp)).mp (by decide)
  obtain ⟨-, readable, apart⟩ := @fieldName_spec [97, 45, 98] (by decide)
  obtain ⟨legal, readBack⟩ := readable.mpr dash
  refine ⟨legal, readBack, by decide, ?_⟩
  exact fun same => absurd (apart dash _ plain same) (by decide)

/-- The key `_Z045_` is left alone and decodes to `-`, whose field name it shares; the key made of
the byte 255 gets the name `_Z00/_`, which is no identifier. -/
theorem keyOf_fieldName_escape : keyOf (fieldName [95, 90, 48, 52, 53, 95]) = [45] ∧
      fieldName [95, 90, 48, 52, 53, 95] = fieldName [45] ∧
      fieldName [255] = [95, 90, 48, 48, 47, 95] ∧ ¬LegalIdentifier (fieldName [255]) := by
  decide

end Json2pb
end McBrpc
