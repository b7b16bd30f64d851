import McBrpc.Details.HpackHuffman
import McBrpc.Library.Reading
import McBrpc.Library.Varint

/-!
# Integers and strings of HPACK

An integer begins in the low bits of a byte that also carries the kind of the field, and a string is
its length followed by its bytes, plain or Huffman coded.  Both are read back as they were written,
up to the 10MB that the decoder accepts.
-/

namespace McBrpc.Hpack

open List Nat UInt8 Varint Reading

/-- `EncodeInteger`: the value in the low `prefixSize` bits of a byte if it fits there, and in
further groups of seven bits otherwise.  An `uint32_t` takes at most five of them. -/
def encodeInteger (msb prefixSize value : Nat) : List UInt8 :=
  if value < 2 ^ prefixSize - 1 then
    [ofNat (msb ||| value)]
  else
    ofNat (msb ||| (2 ^ prefixSize - 1)) :: encode 5 (value - (2 ^ prefixSize - 1))

def maxHpackInteger : Nat := 10 * 1024 * 1024

/-- The loop of `DecodeInteger`; the shift of an `uint64_t` uses the low six bits of its count. -/
def decodeIntegerLoop : Nat → Nat → List UInt8 → Reading Nat
  | _, _, [] => .incomplete
  | m, tmp, byte :: rest =>
    let tmp := tmp + (byte.toNat % 128) <<< (m % 64) % 2 ^ 64
    if 128 ≤ byte.toNat ∧ tmp < maxHpackInteger then
      decodeIntegerLoop (m + 7) tmp rest
    else if maxHpackInteger ≤ tmp then
      .malformed
    else
      .value tmp rest

def decodeInteger (prefixSize : Nat) : List UInt8 → Reading Nat
  | [] => .incomplete
  | first :: rest =>
    if first.toNat % 2 ^ prefixSize < 2 ^ prefixSize - 1 then
      .value (first.toNat % 2 ^ prefixSize) rest
    else
      decodeIntegerLoop 0 (first.toNat % 2 ^ prefixSize) rest

def asciiTolower (c : UInt8) : UInt8 := if 65 ≤ c ∧ c ≤ 90 then c + 32 else c

/-- `tolower` of a whole string. -/
def tolower (s : List UInt8) : List UInt8 := s.map asciiTolower

/-- The bits of the Huffman codes of a string, counted in an `uint32_t`. -/
def huffmanBitLen (s : List UInt8) : Nat :=
  (s.map fun byte => (huffmanCode byte).bitLen).sum % 2 ^ 32

/-- The body of `EncodeString`, once the case of the string is settled. -/
def encodeBytes (s : List UInt8) (huffmanEncoding : Bool) : List UInt8 :=
  if huffmanEncoding then
    encodeInteger 0x80 7 (huffmanBitLen s / 8 + if huffmanBitLen s % 8 = 0 then 0 else 1) ++
      huffmanEncode s
  else
    encodeInteger 0x00 7 (s.length % 2 ^ 32) ++ s

def encodeString (lowercase : Bool) (s : List UInt8) (huffmanEncoding : Bool) : List UInt8 :=
  encodeBytes (if lowercase then tolower s else s) huffmanEncoding

/-- The bytes of a string, when all of them are there. -/
def readBytes (huffman : Bool) (length : Nat) (iter : List UInt8) : Reading (List UInt8) :=
  if iter.length < length then
    .incomplete
  else if huffman then
    match huffmanDecode (iter.take length) with
    | some s => .value s (iter.drop length)
    | none => .malformed
  else
    .value (iter.take length) (iter.drop length)

/-- `DecodeString`, which refuses an incomplete length. -/
def decodeString : List UInt8 → Reading (List UInt8)
  | [] => .incomplete
  | first :: rest =>
    (decodeInteger 7 (first :: rest)).strict.bind (readBytes (decide (128 ≤ first.toNat)))

section Integer

variable {low m tmp msb size : Nat}

theorem shiftLeft_mod_eq (shifts : m < 64) (small : low * 2 ^ m < maxHpackInteger) :
    low <<< (m % 64) % 2 ^ 64 = low * 2 ^ m := by
  rw [mod_eq_of_lt shifts, shiftLeft_eq]
  exact mod_eq_of_lt (lt_trans small (by decide))

variable (rest : List UInt8)

theorem decodeIntegerLoop_last {value : Nat} (last : value < 128) (shifts : m < 64)
    (small : tmp + value * 2 ^ m < maxHpackInteger) :
    decodeIntegerLoop m tmp (ofNat value :: rest) = .value (tmp + value * 2 ^ m) rest := by
  have byte : (ofNat value).toNat = value := by
    simpa using mod_eq_of_lt (show value < 256 by omega)
  have added : value <<< (m % 64) % 2 ^ 64 = value * 2 ^ m := shiftLeft_mod_eq shifts (by omega)
  rw [decodeIntegerLoop]
  simp only [byte, mod_eq_of_lt last, added]
  rw [if_neg (by omega), if_neg (by omega)]

theorem decodeIntegerLoop_more (group : low < 128) (shifts : m < 64)
    (small : tmp + low * 2 ^ m < maxHpackInteger) :
    decodeIntegerLoop m tmp (ofNat (low + 128) :: rest) =
      decodeIntegerLoop (m + 7) (tmp + low * 2 ^ m) rest := by
  have byte : (ofNat (low + 128)).toNat = low + 128 := by
    simpa using mod_eq_of_lt (show low + 128 < 256 by omega)
  have added : low <<< (m % 64) % 2 ^ 64 = low * 2 ^ m := shiftLeft_mod_eq shifts (by omega)
  rw [decodeIntegerLoop]
  simp only [byte, add_mod_right, mod_eq_of_lt group, added]
  rw [if_pos ⟨by omega, small⟩]

theorem mul_two_pow_groups (value m : Nat) :
    value * 2 ^ m = value % 128 * 2 ^ m + value / 128 * 2 ^ (m + 7) := by
  have split := (mod_add_div value 128).symm
  calc value * 2 ^ m = (value % 128 + 128 * (value / 128)) * 2 ^ m := by rw [← split]
    _ = value % 128 * 2 ^ m + value / 128 * 2 ^ (m + 7) := by
        rw [Nat.add_mul, Nat.pow_add, Nat.mul_comm 128, Nat.mul_assoc, Nat.mul_comm 128]

theorem decodeIntegerLoop_encode (width m tmp value : Nat) (rest : List UInt8)
    (fits : value < 128 ^ (width + 1)) (shifts : m + 7 * width < 64)
    (small : tmp + value * 2 ^ m < maxHpackInteger) :
    decodeIntegerLoop m tmp (encode (width + 1) value ++ rest) =
      .value (tmp + value * 2 ^ m) rest := by
  induction width generalizing m tmp value with
  | zero =>
    have last : value < 128 := by simpa using fits
    rw [encode, if_pos last]
    exact decodeIntegerLoop_last rest last (by omega) small
  | succ width ih =>
    rw [encode]
    split
    · next last => exact decodeIntegerLoop_last rest last (by omega) small
    · have groups := mul_two_pow_groups value m
      have quotient : value / 128 < 128 ^ (width + 1) := by
        rw [div_lt_iff_lt_mul (by decide)]
        rwa [pow_succ] at fits
      rw [cons_append, decodeIntegerLoop_more _ (mod_lt _ (by decide)) (by omega)
        (by omega), ih _ _ _ quotient (by omega) (by omega), groups, add_assoc]

theorem toNat_first (room : msb + 2 ^ size ≤ 256) (aligned : 2 ^ size ∣ msb)
    (inside : low < 2 ^ size) : (ofNat (msb ||| low)).toNat = msb + low := by
  obtain ⟨kind, rfl⟩ := aligned
  rw [← two_pow_add_eq_or_of_lt inside kind, toNat_ofNat']
  exact mod_eq_of_lt (by omega)

theorem decodeInteger_encodeInteger {value : Nat} (room : msb + 2 ^ size ≤ 256)
    (aligned : 2 ^ size ∣ msb) (small : value < maxHpackInteger) :
    decodeInteger size (encodeInteger msb size value ++ rest) = .value value rest := by
  have low_eq {low : Nat} (inside : low < 2 ^ size) :
      (ofNat (msb ||| low)).toNat % 2 ^ size = low := by
    obtain ⟨kind, kind_eq⟩ := aligned
    rw [toNat_first room ⟨kind, kind_eq⟩ inside, kind_eq, mul_add_mod, mod_eq_of_lt inside]
  unfold encodeInteger
  split
  · next short =>
    simp only [singleton_append, decodeInteger,
      low_eq (show value < 2 ^ size by omega), if_pos short]
  · next long =>
    have continued := decodeIntegerLoop_encode 4 0 (2 ^ size - 1)
      (value - (2 ^ size - 1)) rest (by unfold maxHpackInteger at small; omega) (by decide)
      (by omega)
    simp only [cons_append, decodeInteger,
      low_eq (show 2 ^ size - 1 < 2 ^ size by omega), lt_irrefl, if_false]
    rw [continued, Nat.pow_zero, Nat.mul_one, Nat.add_sub_cancel' (by omega)]

theorem delimited_decodeIntegerLoop (m tmp : Nat) :
    Reading.Delimited (decodeIntegerLoop m tmp) := by
  intro bytes item rest read
  induction bytes generalizing m tmp with
  | nil => simp [decodeIntegerLoop] at read
  | cons byte bytes ih =>
    rw [decodeIntegerLoop] at read
    split at read
    · next goes =>
      obtain ⟨used, rfl, again⟩ := ih _ _ read
      refine ⟨byte :: used, rfl, fun tail => ?_⟩
      rw [cons_append, decodeIntegerLoop]
      simp only [if_pos goes, again]
    · next stops =>
      split at read
      · simp at read
      · next fits =>
        obtain ⟨rfl, rfl⟩ := read
        refine ⟨[byte], rfl, fun tail => ?_⟩
        rw [singleton_append, decodeIntegerLoop]
        simp only [if_neg stops, if_neg fits]

theorem delimited_decodeInteger (size : Nat) :
    Reading.Delimited (decodeInteger size) := by
  intro bytes item rest read
  cases bytes with
  | nil => simp [decodeInteger] at read
  | cons first bytes =>
    rw [decodeInteger] at read
    split at read
    · next short =>
      obtain ⟨rfl, rfl⟩ := read
      exact ⟨[first], rfl, fun tail => by
        rw [singleton_append, decodeInteger, if_pos short]⟩
    · next long =>
      obtain ⟨used, rfl, again⟩ := delimited_decodeIntegerLoop _ _ read
      exact ⟨first :: used, rfl, fun tail => by
        rw [cons_append, decodeInteger, if_neg long, again]⟩

theorem decodeIntegerLoop_incomplete {item : Nat} {head tail : List UInt8}
    (whole : decodeIntegerLoop m tmp (head ++ tail) = .value item []) (cut : tail ≠ []) :
    decodeIntegerLoop m tmp head = .incomplete := by
  induction head generalizing m tmp with
  | nil => rfl
  | cons byte head ih =>
    rw [cons_append, decodeIntegerLoop] at whole
    rw [decodeIntegerLoop]
    split at whole
    · next goes =>
      rw [if_pos goes]
      exact ih whole
    · split at whole
      · simp at whole
      · simp [cut] at whole

theorem decodeInteger_incomplete {item : Nat} {head tail : List UInt8}
    (whole : decodeInteger size (head ++ tail) = .value item []) (cut : tail ≠ []) :
    decodeInteger size head = .incomplete := by
  cases head with
  | nil => rfl
  | cons first head =>
    rw [cons_append, decodeInteger] at whole
    rw [decodeInteger]
    split at whole
    · simp [cut] at whole
    · next long =>
      rw [if_neg long]
      exact decodeIntegerLoop_incomplete whole cut

theorem encodeInteger_eq_cons (value : Nat) (room : msb + 2 ^ size ≤ 256)
    (aligned : 2 ^ size ∣ msb) :
    ∃ first more, encodeInteger msb size value = first :: more ∧
      msb ≤ first.toNat ∧ first.toNat < msb + 2 ^ size := by
  unfold encodeInteger
  split
  · next short =>
    refine ⟨_, [], rfl, ?_⟩
    rw [toNat_first room aligned (by omega)]
    omega
  · refine ⟨_, _, rfl, ?_⟩
    rw [toNat_first room aligned (by omega)]
    omega

end Integer

/-- How many bytes follow the length of an encoded string. -/
def encodedLength (s : List UInt8) (huffmanEncoding : Bool) : Nat :=
  if huffmanEncoding then (huffmanEncode s).length else s.length

theorem delimited_readBytes (huffman : Bool) (length : Nat) :
    Reading.Delimited (readBytes huffman length) := by
  intro bytes item rest read
  unfold readBytes at read
  split at read
  · simp at read
  · next present =>
    have used_length := length_take_of_le (not_lt.mp present)
    have again (tail : List UInt8) :
        (bytes.take length ++ tail).take length = bytes.take length ∧
          (bytes.take length ++ tail).drop length = tail :=
      ⟨take_left' used_length, drop_left' used_length⟩
    have enough (tail : List UInt8) : ¬ (bytes.take length ++ tail).length < length := by
      rw [length_append, used_length]
      omega
    refine ⟨bytes.take length, ?_⟩
    cases huffman with
    | false =>
      obtain ⟨rfl, rfl⟩ := read
      refine ⟨(take_append_drop _ _).symm, fun tail => ?_⟩
      simp only [readBytes, if_neg (enough tail), again tail, Bool.false_eq_true, if_false]
    | true =>
      simp only [if_true] at read
      split at read
      · next decoded =>
        obtain ⟨rfl, rfl⟩ := read
        refine ⟨(take_append_drop _ _).symm, fun tail => ?_⟩
        simp only [readBytes, if_neg (enough tail), again tail, if_true, decoded]
      · simp at read

variable (rest : List UInt8)

theorem readBytes_eq {huffman : Bool} {coded s : List UInt8}
    (decoded : if huffman then huffmanDecode coded = some s else coded = s) :
    readBytes huffman coded.length (coded ++ rest) = .value s rest := by
  cases huffman with
  | false =>
    have same : coded = s := decoded
    simp [readBytes, same]
  | true =>
    have same : huffmanDecode coded = some s := decoded
    simp [readBytes, same]

theorem delimited_decodeString : Reading.Delimited decodeString := by
  intro bytes item rest read
  cases bytes with
  | nil => simp [decodeString] at read
  | cons first bytes =>
    have delimited : Reading.Delimited fun bytes =>
        (decodeInteger 7 bytes).strict.bind (readBytes (decide (128 ≤ first.toNat))) :=
      (delimited_decodeInteger 7).strict.bind fun length => delimited_readBytes _ length
    obtain ⟨used, bytes_eq, again⟩ := delimited read
    cases used with
    | nil => exact absurd (again []) (by simp [decodeInteger, Reading.strict, Reading.bind])
    | cons head used =>
      obtain ⟨rfl, rfl⟩ := List.cons.inj bytes_eq
      exact ⟨first :: used, rfl, again⟩

theorem decodeString_length_append {msb length : Nat} {coded s : List UInt8}
    (kind : msb = 0 ∨ msb = 128) (length_eq : length = coded.length)
    (small : length < maxHpackInteger)
    (decoded : if msb = 128 then huffmanDecode coded = some s else coded = s) :
    decodeString (encodeInteger msb 7 length ++ coded ++ rest) = .value s rest := by
  have room : msb + 2 ^ 7 ≤ 256 := by omega
  have aligned : 2 ^ 7 ∣ msb := by omega
  obtain ⟨first, more, cons_eq, above, below⟩ := encodeInteger_eq_cons length room aligned
  have read := decodeInteger_encodeInteger (coded ++ rest) room aligned small
  have flag : decide (128 ≤ first.toNat) = decide (msb = 128) := by
    rw [decide_eq_decide]
    omega
  rw [append_assoc]
  rw [cons_eq, cons_append] at read ⊢
  rw [decodeString, read, strict_value, bind_value, flag, length_eq]
  exact readBytes_eq rest (by simpa using decoded)

theorem announcedLength_eq {s : List UInt8} (small : (huffmanEncode s).length < maxHpackInteger) :
    huffmanBitLen s / 8 + (if huffmanBitLen s % 8 = 0 then 0 else 1) =
      (huffmanEncode s).length := by
  rw [length_huffmanEncode] at small ⊢
  have kept : huffmanBitLen s = (s.map fun byte => (huffmanCode byte).bitLen).sum :=
    mod_eq_of_lt (by unfold maxHpackInteger at small; omega)
  split <;> omega

theorem decodeString_encodeBytes {s : List UInt8} {huffmanEncoding : Bool}
    (small : encodedLength s huffmanEncoding < maxHpackInteger) :
    decodeString (encodeBytes s huffmanEncoding ++ rest) = .value s rest := by
  cases huffmanEncoding with
  | false =>
    have kept : s.length % 2 ^ 32 = s.length :=
      mod_eq_of_lt (lt_trans small (by decide))
    exact decodeString_length_append rest (.inl rfl) kept (by rwa [kept]) rfl
  | true =>
    have announced := announcedLength_eq small
    exact decodeString_length_append rest (.inr rfl) announced (by rwa [announced])
      (huffmanDecode_huffmanEncode s)

end McBrpc.Hpack
