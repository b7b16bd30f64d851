import McBrpc.Details.HpackCodec

/-!
# Header blocks in pieces

A piece of a header block that ends where a representation ends can be decoded by itself.  A piece
that ends inside of one is refused when that is a literal; otherwise its last bytes are lost,
because the iterator has been used up when the end is noticed.
-/

namespace McBrpc.Hpack

open List Option Reading Nat

namespace HPacker

/-- The representation at the front: a header, or no header for a size update. -/
def readField (p : HPacker) : List UInt8 → Option (Reading (Option Header) × HPacker)
  | [] => some (.incomplete, p)
  | first :: rest =>
    if 128 ≤ first.toNat then
      some ((p.decodeIndexed (first :: rest)).bind fun h rest => .value (some h) rest, p)
    else if 64 ≤ first.toNat then
      match p.decodeWithKnownPrefix 6 (first :: rest) with
      | .value h rest =>
        (p.decodeTable.addHeader h).map fun t =>
          (.value (some h) rest, { p with decodeTable := t })
      | _ => some (.malformed, p)
    else if 32 ≤ first.toNat then
      match decodeInteger 5 (first :: rest) with
      | .value maxSize rest =>
        if defaultHeaderTableSize < maxSize then
          some (.malformed, p)
        else
          (p.decodeTable.resetMaxSize maxSize).map fun t =>
            (.value none rest, { p with decodeTable := t })
      | .incomplete => some (.incomplete, p)
      | .malformed => some (.malformed, p)
    else
      some ((p.decodeWithKnownPrefix 4 (first :: rest)).bind fun h rest => .value (some h) rest, p)

/-- Size updates are passed over. -/
def afterField (fuel : Nat) : Reading (Option Header) × HPacker → Option (Reading Header × HPacker)
  | (.value none rest, p) => p.decode fuel rest
  | (.value (some h) rest, p) => some (.value h rest, p)
  | (.incomplete, p) => some (.incomplete, p)
  | (.malformed, p) => some (.malformed, p)

theorem decode_succ (fuel : Nat) (p : HPacker) (it : List UInt8) :
    p.decode (fuel + 1) it = (p.readField it).bind (afterField fuel) := by
  cases it with
  | nil => rfl
  | cons first rest =>
    rw [decode, readField]
    split
    · cases p.decodeIndexed (first :: rest) <;> rfl
    · split
      · cases p.decodeWithKnownPrefix 6 (first :: rest) with
        | value h rest => cases added : p.decodeTable.addHeader h <;> simp [added, afterField]
        | incomplete | malformed => rfl
      · split
        · cases decodeInteger 5 (first :: rest) with
          | value maxSize rest =>
            by_cases large : defaultHeaderTableSize < maxSize
            · simp [large, afterField]
            · cases reset : p.decodeTable.resetMaxSize maxSize <;>
                simp [large, reset, afterField]
          | incomplete | malformed => rfl
        · cases p.decodeWithKnownPrefix 4 (first :: rest) <;> rfl

variable (p : HPacker)

theorem delimited_decodeName (index : Nat) : Reading.Delimited (p.decodeName index) := by
  unfold decodeName
  by_cases new : index = 0
  · simp only [if_pos new]
    exact delimited_decodeString.strict.bind fun name => Reading.Delimited.ofValue (tolower name)
  · simp only [if_neg new]
    cases p.headerAt index with
    | none => exact Reading.Delimited.ofMalformed
    | some entry => exact Reading.Delimited.ofValue entry.name

theorem delimited_decodeWithKnownPrefix (size : Nat) :
    Reading.Delimited (p.decodeWithKnownPrefix size) :=
  (delimited_decodeInteger size).strict.bind fun index =>
    (p.delimited_decodeName index).bind fun name =>
      delimited_decodeString.strict.bind fun value =>
        Reading.Delimited.ofValue (⟨name, value⟩ : Header)

theorem delimited_decodeIndexed : Reading.Delimited p.decodeIndexed := by
  refine (delimited_decodeInteger 7).bind fun index => ?_
  cases p.headerAt index with
  | none => exact Reading.Delimited.ofMalformed
  | some entry => exact Reading.Delimited.ofValue entry

theorem decodeIndexed_nil : p.decodeIndexed [] = .incomplete := rfl

theorem decodeWithKnownPrefix_nil (size : Nat) :
    p.decodeWithKnownPrefix size [] = .malformed := rfl

/-- A representation takes its first byte and does not depend on what follows it. -/
theorem readField_cons {p p' : HPacker} {first : UInt8} {rest behind : List UInt8}
    {item : Option Header} (read : p.readField (first :: rest) = some (.value item behind, p')) :
    ∃ more, rest = more ++ behind ∧
      ∀ tail, p.readField (first :: (more ++ tail)) = some (.value item tail, p') := by
  rw [readField] at read
  simp only [readField]
  split at read
  · next indexed =>
    obtain ⟨reading, rfl⟩ := Prod.mk.inj (some.inj read)
    obtain ⟨h, behind', decoded, value_eq⟩ := bind_eq_value_iff.mp reading
    obtain ⟨rfl, rfl⟩ := value.inj value_eq
    obtain ⟨more, rest_eq, again⟩ :=
      p.delimited_decodeIndexed.cons (by simp [decodeIndexed_nil]) decoded
    exact ⟨more, rest_eq, fun tail => by rw [if_pos indexed, again]; rfl⟩
  · next notIndexed =>
    simp only [if_neg notIndexed]
    split at read
    · next added =>
      split at read
      · next h behind' decoded =>
        obtain ⟨t, table_eq, pair_eq⟩ := map_eq_some_iff.mp read
        obtain ⟨value_eq, rfl⟩ := Prod.mk.inj pair_eq
        obtain ⟨rfl, rfl⟩ := value.inj value_eq
        obtain ⟨more, rest_eq, again⟩ := (p.delimited_decodeWithKnownPrefix 6).cons
          (by simp [decodeWithKnownPrefix_nil]) decoded
        refine ⟨more, rest_eq, fun tail => ?_⟩
        rw [if_pos added, again]
        simp only [table_eq, map_some]
      · simp at read
    · next notAdded =>
      simp only [if_neg notAdded]
      split at read
      · next update =>
        split at read
        · next maxSize behind' decoded =>
          split at read
          · simp at read
          · next inside =>
            obtain ⟨t, table_eq, pair_eq⟩ := map_eq_some_iff.mp read
            obtain ⟨value_eq, rfl⟩ := Prod.mk.inj pair_eq
            obtain ⟨rfl, rfl⟩ := value.inj value_eq
            obtain ⟨more, rest_eq, again⟩ := (delimited_decodeInteger 5).cons
              (by simp [decodeInteger]) decoded
            refine ⟨more, rest_eq, fun tail => ?_⟩
            rw [if_pos update, again]
            simp only [if_neg inside, table_eq, map_some]
        · simp at read
        · simp at read
      · next literal =>
        obtain ⟨reading, rfl⟩ := Prod.mk.inj (some.inj read)
        obtain ⟨h, behind', decoded, value_eq⟩ := bind_eq_value_iff.mp reading
        obtain ⟨rfl, rfl⟩ := value.inj value_eq
        obtain ⟨more, rest_eq, again⟩ := (p.delimited_decodeWithKnownPrefix 4).cons
          (by simp [decodeWithKnownPrefix_nil]) decoded
        exact ⟨more, rest_eq, fun tail => by rw [if_neg literal, again]; rfl⟩

theorem length_lt_of_readField {p p' : HPacker} {it rest : List UInt8} {item : Option Header}
    (read : p.readField it = some (.value item rest, p')) : rest.length < it.length := by
  cases it with
  | nil => simp [readField] at read
  | cons first it =>
    obtain ⟨more, rfl, -⟩ := readField_cons read
    rw [length_cons, length_append]
    omega

section Fuel

variable {p p' : HPacker} {it rest : List UInt8}

theorem decode_eq_of_le (p : HPacker) {fuel other : Nat} (enough : it.length ≤ fuel)
    (also : it.length ≤ other) : p.decode fuel it = p.decode other it := by
  induction fuel generalizing other p it with
  | zero =>
    obtain rfl : it = [] := eq_nil_of_length_eq_zero (Nat.le_zero.mp enough)
    cases other <;> rfl
  | succ fuel ih =>
    cases other with
    | zero =>
      obtain rfl : it = [] := eq_nil_of_length_eq_zero (Nat.le_zero.mp also)
      rfl
    | succ other =>
      rw [decode_succ, decode_succ]
      cases read : p.readField it with
      | none => rfl
      | some out =>
        obtain ⟨reading, p'⟩ := out
        cases reading with
        | incomplete | malformed => rfl
        | value item rest =>
          have shorter := length_lt_of_readField read
          cases item with
          | none => exact ih p' (by omega) (by omega)
          | some h => rfl

theorem decode_of_readField (read : p.readField it = some (.value none rest, p')) :
    p.decode it.length it = p'.decode rest.length rest := by
  have shorter := length_lt_of_readField read
  obtain ⟨fuel, length_eq⟩ : ∃ fuel, it.length = fuel + 1 := ⟨it.length - 1, by omega⟩
  rw [length_eq, decode_succ, read]
  exact p'.decode_eq_of_le (by omega) (le_refl _)

theorem length_lt_of_decode {fuel : Nat} {h : Header}
    (read : p.decode fuel it = some (.value h rest, p')) : rest.length < it.length := by
  induction fuel generalizing p it with
  | zero => simp [decode] at read
  | succ fuel ih =>
    rw [decode_succ] at read
    obtain ⟨⟨reading, next⟩, field, after⟩ := bind_eq_some_iff.mp read
    cases reading with
    | incomplete | malformed => simp [afterField] at after
    | value item behind =>
      have shorter := length_lt_of_readField field
      cases item with
      | none => exact lt_trans (ih after) shorter
      | some h' =>
        obtain ⟨⟨rfl, rfl⟩, rfl⟩ := after
        exact shorter

variable (accept : Header → Bool)

theorem consume_eq_of_le (p : HPacker) {fuel other : Nat} (enough : it.length ≤ fuel)
    (also : it.length ≤ other) : p.consume accept fuel it = p.consume accept other it := by
  induction fuel generalizing other p it with
  | zero =>
    obtain rfl : it = [] := eq_nil_of_length_eq_zero (Nat.le_zero.mp enough)
    rw [consume_nil, consume_nil]
  | succ fuel ih =>
    by_cases empty : it = []
    · rw [empty, consume_nil, consume_nil]
    · have positive := length_pos_iff.mpr empty
      obtain ⟨other, rfl⟩ : ∃ less, other = less + 1 := ⟨other - 1, by omega⟩
      rw [consume, consume, if_neg empty, if_neg empty]
      cases read : p.decode it.length it with
      | none => rfl
      | some out =>
        obtain ⟨reading, p'⟩ := out
        cases reading with
        | incomplete | malformed => rfl
        | value h rest =>
          have shorter := length_lt_of_decode read
          simp only [ih p' (show rest.length ≤ fuel by omega) (show rest.length ≤ other by omega)]

theorem bytesLeft_of_consume (p : HPacker) {fuel : Nat} (enough : it.length ≤ fuel) {c : Consumed}
    (used : p.consume accept fuel it = some c) (ok : c.ok = true) : c.bytesLeft = [] := by
  induction fuel generalizing p it c with
  | zero =>
    obtain rfl : it = [] := eq_nil_of_length_eq_zero (Nat.le_zero.mp enough)
    obtain rfl := some.inj used
    rfl
  | succ fuel ih =>
    rw [consume] at used
    split at used
    · obtain rfl := some.inj used
      rfl
    · split at used
      · simp at used
      · obtain rfl := some.inj used
        simp at ok
      · obtain rfl := some.inj used
        rfl
      · next h rest p' read =>
        have shorter := length_lt_of_decode read
        split at used
        · obtain ⟨later, again, rfl⟩ := map_eq_some_iff.mp used
          have left : later.bytesLeft = [] :=
            ih p' (show rest.length ≤ fuel by omega) again ok
          exact left
        · obtain rfl := some.inj used
          simp at ok

end Fuel

/-- What decoding a block comes to: the tables, the accepted headers and whether there was no
error. -/
def Consumed.outcome (c : Consumed) : HPacker × List Header × Bool := (c.packer, c.headers, c.ok)

/-- Headers that were decoded before. -/
def prepend (headers : List Header) (outcome : HPacker × List Header × Bool) :
    HPacker × List Header × Bool := (outcome.1, headers ++ outcome.2.1, outcome.2.2)

/-- The outcome of a piece of a header block. -/
def decodePiece (accept : Header → Bool) (p : HPacker) (it : List UInt8) :
    Option (HPacker × List Header × Bool) :=
  (p.consume accept it.length it).map Consumed.outcome

/-- Read whole representations until the bytes are used up: the tables and the headers, if all of
them are accepted. -/
def readFields (accept : Header → Bool) : Nat → HPacker → List UInt8 →
    Option (HPacker × List Header)
  | _, p, [] => some (p, [])
  | 0, _, _ :: _ => none
  | fuel + 1, p, first :: rest =>
    match p.readField (first :: rest) with
    | some (.value none behind, p) => readFields accept fuel p behind
    | some (.value (some h) behind, p) =>
      if accept h then
        (readFields accept fuel p behind).map fun (q, headers) => (q, h :: headers)
      else
        none
    | _ => none

section Pieces

variable {accept : Header → Bool} {p p' q : HPacker} {it rest : List UInt8}

theorem decodePiece_of_update (read : p.readField it = some (.value none rest, p')) :
    p.decodePiece accept it = p'.decodePiece accept rest := by
  have shorter := length_lt_of_readField read
  have same := decode_of_readField read
  obtain ⟨fuel, length_eq⟩ : ∃ fuel, it.length = fuel + 1 := ⟨it.length - 1, by omega⟩
  have ne : it ≠ [] := by
    rintro rfl
    simp at length_eq
  rw [decodePiece, decodePiece, length_eq, consume, if_neg ne, same]
  by_cases empty : rest = []
  · rw [empty]
    rfl
  · obtain ⟨less, rest_eq⟩ : ∃ less, rest.length = less + 1 :=
      ⟨rest.length - 1, by have := length_pos_iff.mpr empty; omega⟩
    rw [rest_eq, consume, if_neg empty, ← rest_eq]
    cases next : p'.decode rest.length rest with
    | none => rfl
    | some out =>
      obtain ⟨reading, after⟩ := out
      cases reading with
      | incomplete | malformed => rfl
      | value h behind =>
        have shorter := length_lt_of_decode next
        simp only [after.consume_eq_of_le accept (show behind.length ≤ fuel by omega)
          (show behind.length ≤ less by omega)]

theorem decodePiece_of_header {h : Header} (read : p.readField it = some (.value (some h) rest, p'))
    (taken : accept h = true) :
    p.decodePiece accept it = (p'.decodePiece accept rest).map (prepend [h]) := by
  have shorter := length_lt_of_readField read
  obtain ⟨fuel, length_eq⟩ : ∃ fuel, it.length = fuel + 1 := ⟨it.length - 1, by omega⟩
  have ne : it ≠ [] := by
    rintro rfl
    simp at length_eq
  have decoded : p.decode it.length it = some (.value h rest, p') := by
    rw [length_eq, decode_succ, read]
    rfl
  rw [decodePiece, decodePiece, length_eq, consume_value fuel ne decoded taken,
    p'.consume_eq_of_le accept (show rest.length ≤ fuel by omega) (le_refl _), Option.map_map,
    Option.map_map]
  rfl

/-- Behind whole representations decoding goes on with the rest of the block. -/
theorem decodePiece_append {fuel : Nat} {piece : List UInt8} {headers : List Header}
    (whole : p.readFields accept fuel piece = some (q, headers)) (rest : List UInt8) :
    p.decodePiece accept (piece ++ rest) = (q.decodePiece accept rest).map (prepend headers) := by
  induction fuel generalizing p piece headers with
  | zero =>
    cases piece with
    | nil =>
      obtain ⟨rfl, rfl⟩ := Prod.mk.inj (some.inj whole)
      exact map_id'.symm
    | cons first piece => simp [readFields] at whole
  | succ fuel ih =>
    cases piece with
    | nil =>
      obtain ⟨rfl, rfl⟩ := Prod.mk.inj (some.inj whole)
      exact map_id'.symm
    | cons first piece =>
      rw [readFields] at whole
      split at whole
      · next behind next read =>
        obtain ⟨more, rfl, again⟩ := readField_cons read
        have read := again (behind ++ rest)
        rw [cons_append, append_assoc, decodePiece_of_update read]
        exact ih whole
      · next h behind next read =>
        obtain ⟨more, rfl, again⟩ := readField_cons read
        have read := again (behind ++ rest)
        split at whole
        · next taken =>
          obtain ⟨⟨q', headers'⟩, later, pair_eq⟩ := map_eq_some_iff.mp whole
          obtain ⟨rfl, rfl⟩ := Prod.mk.inj pair_eq
          rw [cons_append, append_assoc, decodePiece_of_header read taken,
            ih later, Option.map_map]
          rfl
        · simp at whole
      · simp at whole

theorem consume_of_readFields {fuel : Nat} {piece : List UInt8} {headers : List Header}
    (whole : p.readFields accept fuel piece = some (q, headers)) :
    p.consume accept piece.length piece = some ⟨q, headers, [], true⟩ := by
  have outcome := decodePiece_append whole []
  rw [append_nil, decodePiece] at outcome
  obtain ⟨c, used, outcome_eq⟩ := map_eq_some_iff.mp
    (outcome.trans (show _ = some (q, headers ++ [], true) from rfl))
  rw [append_nil] at outcome_eq
  obtain ⟨rfl, pair_eq⟩ := Prod.mk.inj outcome_eq
  obtain ⟨rfl, ok⟩ := Prod.mk.inj pair_eq
  have usedUp := bytesLeft_of_consume accept p (le_refl _) used ok
  rw [used, ← usedUp, ← ok]

end Pieces

def isLiteral (first : UInt8) : Prop :=
  first.toNat < 32 ∨ 64 ≤ first.toNat ∧ first.toNat < 128

instance (first : UInt8) : Decidable (isLiteral first) := inferInstanceAs (Decidable (_ ∨ _ ∧ _))

theorem decodeName_ne_incomplete (p : HPacker) (index : Nat) (it : List UInt8) :
    p.decodeName index it ≠ .incomplete := by
  unfold decodeName
  split
  · refine bind_ne_incomplete (strict_ne_incomplete _) fun name rest => ?_
    simp
  · split <;> simp

theorem decodeWithKnownPrefix_ne_incomplete (p : HPacker) (size : Nat) (it : List UInt8) :
    p.decodeWithKnownPrefix size it ≠ .incomplete := by
  refine bind_ne_incomplete (strict_ne_incomplete _) fun index rest => ?_
  refine bind_ne_incomplete (p.decodeName_ne_incomplete index rest) fun name rest => ?_
  refine bind_ne_incomplete (strict_ne_incomplete _) fun value rest => ?_
  simp

variable {p : HPacker} {head tail : List UInt8}

theorem decodeWithKnownPrefix_cut {size : Nat} {h : Header}
    (whole : p.decodeWithKnownPrefix size (head ++ tail) = .value h []) (cut : tail ≠ [])
    : p.decodeWithKnownPrefix size head = .malformed := by
  cases read : p.decodeWithKnownPrefix size head with
  | malformed => rfl
  | incomplete => exact absurd read (p.decodeWithKnownPrefix_ne_incomplete size head)
  | value other rest =>
    exact absurd read
      ((p.delimited_decodeWithKnownPrefix size).not_value_of_append whole cut other rest)

/-- A representation that was cut: a literal is refused, the rest is taken for incomplete. -/
theorem readField_cut {p' : HPacker} {first : UInt8} {item : Option Header}
    (whole : p.readField (first :: head ++ tail) = some (.value item [], p')) (cut : tail ≠ []) :
    p.readField (first :: head) =
      some (if isLiteral first then .malformed else .incomplete, p) := by
  rw [cons_append, readField, ← cons_append] at whole
  rw [readField]
  have literal_iff : isLiteral first ↔
      first.toNat < 32 ∨ 64 ≤ first.toNat ∧ first.toNat < 128 := Iff.rfl
  split at whole
  · next indexed =>
    obtain ⟨read, -⟩ := Prod.mk.inj (some.inj whole)
    obtain ⟨h, behind, decoded, value_eq⟩ := bind_eq_value_iff.mp read
    obtain ⟨-, rfl⟩ := value.inj value_eq
    obtain ⟨index, rest, integer, found⟩ := bind_eq_value_iff.mp decoded
    have rest_eq : rest = [] := by
      split at found
      · simp at found
      · exact (value.inj found).2
    rw [rest_eq] at integer
    rw [if_pos indexed, if_neg (mt literal_iff.mp (by omega)),
      decodeIndexed, decodeInteger_incomplete integer cut]
    rfl
  · next notIndexed =>
    rw [if_neg notIndexed]
    split at whole
    · next added =>
      split at whole
      · next h behind decoded =>
        obtain ⟨t, -, pair_eq⟩ := map_eq_some_iff.mp whole
        obtain ⟨-, rfl⟩ := value.inj (Prod.mk.inj pair_eq).1
        rw [if_pos added, if_pos (literal_iff.mpr (by omega)),
          decodeWithKnownPrefix_cut decoded cut]
      · simp at whole
    · next notAdded =>
      rw [if_neg notAdded]
      split at whole
      · next update =>
        split at whole
        · next maxSize behind decoded =>
          split at whole
          · simp at whole
          · obtain ⟨t, -, pair_eq⟩ := map_eq_some_iff.mp whole
            obtain ⟨-, rfl⟩ := value.inj (Prod.mk.inj pair_eq).1
            rw [if_pos update, if_neg (mt literal_iff.mp (by omega)),
              decodeInteger_incomplete decoded cut]
        · simp at whole
        · simp at whole
      · next literal =>
        obtain ⟨read, -⟩ := Prod.mk.inj (some.inj whole)
        obtain ⟨h, behind, decoded, value_eq⟩ := bind_eq_value_iff.mp read
        obtain ⟨-, rfl⟩ := value.inj value_eq
        rw [if_neg literal, if_pos (literal_iff.mpr (by omega)),
          decodeWithKnownPrefix_cut decoded cut]
        rfl

theorem decodePiece_cut {accept : Header → Bool} {p' : HPacker} {first : UInt8}
    {item : Option Header}
    (whole : p.readField (first :: head ++ tail) = some (.value item [], p')) (cut : tail ≠ []) :
    p.decodePiece accept (first :: head) = some (p, [], !decide (isLiteral first)) := by
  have read := readField_cut whole cut
  have decoded : p.decode (first :: head).length (first :: head) =
      some (if isLiteral first then .malformed else .incomplete, p) := by
    rw [length_cons, decode_succ, read]
    split <;> rfl
  rw [decodePiece, length_cons, consume, if_neg (cons_ne_nil _ _), decoded]
  by_cases literal : isLiteral first
  · simp [literal, Consumed.outcome]
  · simp [literal, Consumed.outcome]

end HPacker

end McBrpc.Hpack
