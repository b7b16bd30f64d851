import McBrpc.Library.Varint
import McBrpc.NameAgent.NameServiceProxy

/-!
# The wire form of a registration

Registrations travel as proto3 messages with two varint fields and one string field, each omitted
at its default.  The agent's proofs use a codec only through `parse_serialize`; `wireCodec` is the
proto3 one.
-/

namespace McBrpc

open Varint List

/-- Serialization and parsing of registration messages. -/
structure InstanceCodec (Value : Type) where
  serializeAsString : InstanceInfo → Value
  parseFromString : Value → Option InstanceInfo
  parse_serialize : ∀ info, parseFromString (serializeAsString info) = some info

namespace InstanceInfo

def endpointBytes (info : InstanceInfo) : List UInt8 := info.endpoint.toByteArray.data.toList

/-- The text with the given bytes, if they are valid UTF-8. -/
def textOfBytes? (bytes : List UInt8) : Option String := String.fromUTF8? ⟨bytes.toArray⟩

/-- An unsigned number under a tag, omitted when it is zero. -/
def wireNumber (tag : UInt8) (value : UInt32) : List UInt8 :=
  if value = 0 then [] else tag :: encode 10 value.toNat

/-- A text under a tag, omitted when it is empty. -/
def wireText (tag : UInt8) (bytes : List UInt8) : List UInt8 :=
  if bytes.isEmpty then [] else tag :: (encode (bytes.length + 10) bytes.length ++ bytes)

/-- The message in field order. -/
def toWire (info : InstanceInfo) : List UInt8 :=
  wireNumber 8 info.regionId ++ wireNumber 16 info.groupId ++ wireText 26 info.endpointBytes

/-- Drop the payload of an unknown field.  Unknown groups are refused. -/
def skipField (wireType : Nat) (bytes : List UInt8) : Option (List UInt8) :=
  match wireType with
  | 0 => (decode 10 bytes).map Prod.snd
  | 1 => if 8 ≤ bytes.length then some (bytes.drop 8) else none
  | 2 => (decode (bytes.length + 10) bytes).bind fun (length, rest) =>
    if length ≤ rest.length then some (rest.drop length) else none
  | 5 => if 4 ≤ bytes.length then some (bytes.drop 4) else none
  | _ => none

/-- Read fields until the input ends, later ones overwriting earlier ones. -/
def parseFields : Nat → List UInt8 → InstanceInfo → Option InstanceInfo
  | 0, _, _ => none
  | _ + 1, [], info => some info
  | fuel + 1, byte :: bytes, info =>
    match decode 10 (byte :: bytes) with
    | none => none
    | some (8, rest) =>
      (decode 10 rest).bind fun (value, rest) =>
        parseFields fuel rest { info with regionId := UInt32.ofNat value }
    | some (16, rest) =>
      (decode 10 rest).bind fun (value, rest) =>
        parseFields fuel rest { info with groupId := UInt32.ofNat value }
    | some (26, rest) =>
      (decode (rest.length + 10) rest).bind fun (length, rest) =>
        if length ≤ rest.length then
          (textOfBytes? (rest.take length)).bind fun text =>
            parseFields fuel (rest.drop length) { info with endpoint := text }
        else none
    | some (tag, rest) =>
      (skipField (tag % 8) rest).bind fun rest => parseFields fuel rest info

/-- Parse a message from its default value. -/
def ofWire? (bytes : List UInt8) : Option InstanceInfo :=
  parseFields (bytes.length + 1) bytes ⟨0, 0, ""⟩

variable (fuel : Nat) (info : InstanceInfo)

theorem textOfBytes?_endpointBytes : textOfBytes? info.endpointBytes = some info.endpoint := by
  have bytes : (⟨info.endpointBytes.toArray⟩ : ByteArray) = info.endpoint.toByteArray := by
    simp [endpointBytes]
  rw [textOfBytes?, bytes, String.fromUTF8?, dif_pos info.endpoint.isValidUTF8]
  rfl

theorem endpointBytes_isEmpty : info.endpointBytes.isEmpty = true ↔ info.endpoint = "" := by
  rw [← String.toByteArray_inj, List.isEmpty_iff]
  constructor
  · intro vacant
    apply ByteArray.ext
    simpa [endpointBytes] using vacant
  · intro vacant
    simp [endpointBytes, vacant]

theorem parseFields_nil : parseFields (fuel + 1) [] info = some info := rfl

theorem parseFields_region (value : UInt32) (rest : List UInt8) (info : InstanceInfo) :
    parseFields (fuel + 1) (8 :: (encode 10 value.toNat ++ rest)) info =
      parseFields fuel rest { info with regionId := value } := by
  have fits : value.toNat < 128 ^ 10 := value.toNat_lt.trans (by decide)
  have tag : decode 10 (8 :: (encode 10 value.toNat ++ rest)) =
      some (8, encode 10 value.toNat ++ rest) := rfl
  rw [parseFields, tag]
  simp [decode_encode 9 0 value.toNat fits rest]

theorem parseFields_group (value : UInt32) (rest : List UInt8) (info : InstanceInfo) :
    parseFields (fuel + 1) (16 :: (encode 10 value.toNat ++ rest)) info =
      parseFields fuel rest { info with groupId := value } := by
  have fits : value.toNat < 128 ^ 10 := value.toNat_lt.trans (by decide)
  have tag : decode 10 (16 :: (encode 10 value.toNat ++ rest)) =
      some (16, encode 10 value.toNat ++ rest) := rfl
  rw [parseFields, tag]
  simp [decode_encode 9 0 value.toNat fits rest]

theorem parseFields_endpoint (source info : InstanceInfo) : parseFields (fuel + 1)
        (26 :: (encode (source.endpointBytes.length + 10) source.endpointBytes.length ++
          source.endpointBytes)) info =
      parseFields fuel [] { info with endpoint := source.endpoint } := by
  generalize size : source.endpointBytes.length = length
  have fits : length < 128 ^ (length + 9 + 1) :=
    (Nat.lt_pow_self (by decide)).trans_le (Nat.pow_le_pow_right (by decide) (by omega))
  have tag : decode 10 (26 :: (encode (length + 10) length ++ source.endpointBytes)) =
      some (26, encode (length + 10) length ++ source.endpointBytes) := rfl
  have width : (encode (length + 10) length ++ source.endpointBytes).length + 10 =
      length + 9 + 1 + (encode (length + 10) length).length := by
    rw [List.length_append, size]
    omega
  rw [parseFields, tag]
  simp only
  rw [width, decode_encode (length + 9) _ length fits source.endpointBytes]
  simp [← size, textOfBytes?_endpointBytes]

theorem exists_parseFields_wireNumber {fuel : Nat} {tag : UInt8} {value : UInt32}
    {before after : InstanceInfo} {rest : List UInt8} (absent : value = 0 → before = after)
    (present : ∀ fuel, parseFields (fuel + 1) (tag :: (encode 10 value.toNat ++ rest)) before =
      parseFields fuel rest after) (enough : (wireNumber tag value ++ rest).length < fuel) :
    ∃ later, rest.length < later ∧
      parseFields fuel (wireNumber tag value ++ rest) before = parseFields later rest after := by
  by_cases zero : value = 0
  · subst zero
    exact ⟨fuel, by simpa [wireNumber] using enough, by simp [wireNumber, absent rfl]⟩
  · obtain ⟨later, rfl⟩ : ∃ later, fuel = later + 1 := ⟨fuel - 1, by omega⟩
    simp only [wireNumber, zero, if_false, cons_append, length_cons, List.length_append] at enough ⊢
    exact ⟨later, by omega, present later⟩

theorem parseFields_wireText {fuel : Nat} {source : InstanceInfo} {region group : UInt32}
    (enough : (wireText 26 source.endpointBytes).length < fuel) :
    parseFields fuel (wireText 26 source.endpointBytes) ⟨region, group, ""⟩ =
      some ⟨region, group, source.endpoint⟩ := by
  obtain ⟨later, rfl⟩ : ∃ later, fuel = later + 1 := ⟨fuel - 1, by omega⟩
  by_cases vacant : source.endpointBytes.isEmpty = true
  · have noText : source.endpoint = "" := (endpointBytes_isEmpty source).mp vacant
    rw [wireText, if_pos vacant, parseFields_nil, noText]
  · rw [wireText, if_neg vacant] at enough ⊢
    rw [parseFields_endpoint]
    simp only [length_cons] at enough
    obtain ⟨last, rfl⟩ : ∃ last, later = last + 1 := ⟨later - 1, by omega⟩
    exact parseFields_nil last _

theorem ofWire?_toWire : ofWire? info.toWire = some info := by
  rw [ofWire?, toWire, List.append_assoc]
  obtain ⟨fuel, enough, region⟩ := exists_parseFields_wireNumber (fun zero => by rw [zero])
    (parseFields_region · info.regionId _ ⟨0, 0, ""⟩) (Nat.lt_succ_self _)
  obtain ⟨fuel', enough', group⟩ := exists_parseFields_wireNumber (fun zero => by rw [zero])
    (parseFields_group · info.groupId _ ⟨info.regionId, 0, ""⟩) enough
  rw [region, group]
  exact parseFields_wireText enough'

end InstanceInfo

def wireCodec : InstanceCodec (List UInt8) where
  serializeAsString := InstanceInfo.toWire
  parseFromString := InstanceInfo.ofWire?
  parse_serialize := InstanceInfo.ofWire?_toWire

end McBrpc
