import Mathlib.Order.Lattice
import Mathlib.Data.List.Basic

/-!
# Field validation

`ValidatorUtil::Validate` checks a protobuf message against the rules of its fields, and recurses
into sub-messages.  Floating-point types are ordered types, and regular expressions are matched by a
parameter.
-/

namespace McBrpc

/-- `Int32Rule`, `Int64Rule`, `UInt32Rule`, `UInt64Rule`, `FloatRule` and `DoubleRule`; a bound is
absent unless it is set. -/
structure NumericRule (α : Type) where
  lt : Option α
  lte : Option α
  gt : Option α
  gte : Option α
  inList : List α
  notIn : List α

structure StringRule where
  notEmpty : Bool
  minLen : Option UInt32
  maxLen : Option UInt32
  regexPattern : String

structure EnumRule where
  inList : List Int32

structure ArrayRule where
  notEmpty : Bool
  minLen : Option UInt32
  maxLen : Option UInt32

/-- `ValidateRules`, one rule of some kind or none. -/
inductive ValidateRules (F D : Type) where
  | notSet
  | int32 (rule : NumericRule Int32)
  | int64 (rule : NumericRule Int64)
  | uint32 (rule : NumericRule UInt32)
  | uint64 (rule : NumericRule UInt64)
  | float (rule : NumericRule F)
  | double (rule : NumericRule D)
  | string (rule : StringRule)
  | enum (rule : EnumRule)
  | array (rule : ArrayRule)

/-- The type of a field, with the value that an absent field has. -/
inductive CppType (F D τ : Type) where
  | int32 (default : Int32)
  | int64 (default : Int64)
  | uint32 (default : UInt32)
  | uint64 (default : UInt64)
  | float (default : F)
  | double (default : D)
  | bool
  | string (default : List UInt8)
  | enum (default : Int32)
  | message (type : τ)

structure FieldDescriptor (F D τ : Type) where
  fullName : String
  isRepeated : Bool
  cppType : CppType F D τ
  rules : ValidateRules F D

abbrev Schema (F D τ : Type) := τ → List (FieldDescriptor F D τ)

mutual

/-- A message, as the values of its fields in the order of the descriptor. -/
inductive Message (F D : Type) where
  | mk (fields : List (List (FieldValue F D)))

inductive FieldValue (F D : Type) where
  | int32 (value : Int32)
  | int64 (value : Int64)
  | uint32 (value : UInt32)
  | uint64 (value : UInt64)
  | float (value : F)
  | double (value : D)
  | bool (value : Bool)
  | string (value : List UInt8)
  | enum (number : Int32)
  | message (message : Message F D)

end

namespace Message

variable {F D α : Type}

/-- The values of a field: none or one of a singular field, the elements of a repeated one. -/
def values (index : Nat) : Message F D → List (FieldValue F D)
  | mk fields => fields.getD index []

def defaultInstance : Message F D := mk []

/-- The value of a singular field as reflection gives it. -/
def get (project : FieldValue F D → Option α) (default : α) (index : Nat) (message : Message F D) :
    α :=
  ((message.values index).head?.bind project).getD default

def ofValue : FieldValue F D → Option (Message F D)
  | .message message => some message
  | _ => none

def getInt32 : Int32 → Nat → Message F D → Int32 := get fun | .int32 value => some value | _ => none

def getInt64 : Int64 → Nat → Message F D → Int64 := get fun | .int64 value => some value | _ => none

def getUInt32 : UInt32 → Nat → Message F D → UInt32 :=
  get fun | .uint32 value => some value | _ => none

def getUInt64 : UInt64 → Nat → Message F D → UInt64 :=
  get fun | .uint64 value => some value | _ => none

def getFloat : F → Nat → Message F D → F := get fun | .float value => some value | _ => none

def getDouble : D → Nat → Message F D → D := get fun | .double value => some value | _ => none

def getString : List UInt8 → Nat → Message F D → List UInt8 :=
  get fun | .string value => some value | _ => none

def getEnum : Int32 → Nat → Message F D → Int32 := get fun | .enum number => some number | _ => none

def getMessage : Nat → Message F D → Message F D := get ofValue defaultInstance

/-- `GetRepeatedMessage` for each index below `FieldSize`. -/
def repeatedMessages (index : Nat) (message : Message F D) : List (Message F D) :=
  (message.values index).map fun value => (ofValue value).getD defaultInstance

end Message

structure ValidateResult where
  isValid : Bool
  msg : String
  deriving DecidableEq

namespace ValidatorUtil

def valid : ValidateResult := ⟨true, ""⟩

section

variable {α : Type} [LE α] [LT α] [DecidableLE α] [DecidableLT α] [DecidableEq α]

def numericalValidator (fullName : String) (rule : NumericRule α) (value : α) : ValidateResult :=
  if rule.lt.any (value ≥ ·) || rule.lte.any (value > ·) || rule.gt.any (value ≤ ·) ||
      rule.gte.any (value < ·) then
    ⟨false, fullName ++ " value out of range."⟩
  else if (!rule.inList.isEmpty && !rule.inList.contains value) ||
      (!rule.notIn.isEmpty && rule.notIn.contains value) then
    ⟨false, fullName ++ " value not allowed."⟩
  else valid

end

def stringValidator (regexMatch : String → List UInt8 → Bool) (fullName : String)
    (rule : StringRule) (value : List UInt8) : ValidateResult :=
  if rule.notEmpty && value.isEmpty then ⟨false, fullName ++ " can not be empty."⟩
  else if rule.minLen.any (value.length < ·.toNat) || rule.maxLen.any (value.length > ·.toNat) then
    ⟨false, fullName ++ " length out of range."⟩
  else if !value.isEmpty && !(rule.regexPattern == "") && !regexMatch rule.regexPattern value then
    ⟨false, fullName ++ " format invalid."⟩
  else valid

def enumValidator (fullName : String) (rule : EnumRule) (value : Int32) : ValidateResult :=
  if !rule.inList.isEmpty && !rule.inList.contains value then
    ⟨false, fullName ++ " value not allowed."⟩
  else valid

/-- The checks of an array rule in `ArrayValidator`; a bound that is not set reads as 0. -/
def arrayRuleValidator (fullName : String) (rule : ArrayRule) (arrLen : Nat) : ValidateResult :=
  let minLen := (rule.minLen.getD 0).toNat
  let maxLen := (rule.maxLen.getD 0).toNat
  if rule.notEmpty && arrLen == 0 then ⟨false, fullName ++ " can not be empty."⟩
  else if (minLen != 0 && arrLen < minLen) || (maxLen != 0 && arrLen > maxLen) then
    ⟨false, fullName ++ " length out of range."⟩
  else valid

/-- A loop that returns the first result that is not valid; `none` if a check does not return. -/
def validateAll {α : Type} (check : α → Option ValidateResult) : List α → Option ValidateResult
  | [] => some valid
  | item :: items =>
    (check item).bind fun result =>
      if result.isValid then validateAll check items else some result

variable {F D τ : Type}

/-- The first part of `ArrayValidator`. -/
def arrayLengthValidator (field : FieldDescriptor F D τ) (arrLen : Nat) : ValidateResult :=
  match field.rules with
  | .array rule => arrayRuleValidator field.fullName rule arrLen
  | _ => valid

def arrayValidator (recurse : τ → Message F D → Option ValidateResult)
    (field : FieldDescriptor F D τ) (index : Nat) (message : Message F D) : Option ValidateResult :=
  let result := arrayLengthValidator field (message.values index).length
  if result.isValid then
    match field.cppType with
    | .message type => validateAll (recurse type) (message.repeatedMessages index)
    | _ => some valid
  else some result

variable [LinearOrder F] [LinearOrder D] (regexMatch : String → List UInt8 → Bool)

/-- The check of one field in the loop of `Validate`. -/
def validateField (recurse : τ → Message F D → Option ValidateResult) (message : Message F D)
    (field : FieldDescriptor F D τ) (index : Nat) : Option ValidateResult :=
  if field.isRepeated then arrayValidator recurse field index message
  else
    match field.cppType, field.rules with
    | .int32 default, .int32 rule =>
      some (numericalValidator field.fullName rule (message.getInt32 default index))
    | .int64 default, .int64 rule =>
      some (numericalValidator field.fullName rule (message.getInt64 default index))
    | .uint32 default, .uint32 rule =>
      some (numericalValidator field.fullName rule (message.getUInt32 default index))
    | .uint64 default, .uint64 rule =>
      some (numericalValidator field.fullName rule (message.getUInt64 default index))
    | .float default, .float rule =>
      some (numericalValidator field.fullName rule (message.getFloat default index))
    | .double default, .double rule =>
      some (numericalValidator field.fullName rule (message.getDouble default index))
    | .string default, .string rule =>
      some (stringValidator regexMatch field.fullName rule (message.getString default index))
    | .enum default, .enum rule =>
      some (enumValidator field.fullName rule (message.getEnum default index))
    | .message type, _ => recurse type (message.getMessage index)
    | _, _ => some valid

/-- `Validate`, with calls nested at most to the given depth. -/
def validate (schema : Schema F D τ) : Nat → τ → Message F D → Option ValidateResult
  | 0, _, _ => none
  | depth + 1, type, message =>
    validateAll
      (fun entry => validateField regexMatch (validate schema depth) message entry.1 entry.2)
      (schema type).zipIdx

end ValidatorUtil
end McBrpc
