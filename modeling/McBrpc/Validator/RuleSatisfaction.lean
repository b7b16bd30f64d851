import McBrpc.Validator.ValidatorUtil

/-!
# What a valid message satisfies

The rules are restated without reference to the validator, at every nesting depth of a message.  The
validator decides them, except that it ignores an upper bound of an array that is set to 0.
-/

namespace McBrpc

open List Nat Message FieldDescriptor Option

namespace NumericRule

variable {α : Type} [LE α] [LT α]

/-- The value is within the bounds that are set and allowed by the lists that are not empty. -/
structure Holds (rule : NumericRule α) (value : α) : Prop where
  lt : ∀ bound ∈ rule.lt, value < bound
  lte : ∀ bound ∈ rule.lte, value ≤ bound
  gt : ∀ bound ∈ rule.gt, bound < value
  gte : ∀ bound ∈ rule.gte, bound ≤ value
  inList : rule.inList ≠ [] → value ∈ rule.inList
  notIn : value ∉ rule.notIn

end NumericRule

/-- The string is not empty if it must not be, has a length within the bounds that are set, and
matches the pattern unless one of them is empty. -/
structure StringRule.Holds (regexMatch : String → List UInt8 → Bool) (rule : StringRule)
    (value : List UInt8) : Prop where
  notEmpty : rule.notEmpty → value ≠ []
  minLen : ∀ bound ∈ rule.minLen, bound.toNat ≤ value.length
  maxLen : ∀ bound ∈ rule.maxLen, value.length ≤ bound.toNat
  pattern : value ≠ [] → rule.regexPattern ≠ "" → regexMatch rule.regexPattern value

/-- The number is in the list if that is not empty. -/
def EnumRule.Holds (rule : EnumRule) (number : Int32) : Prop :=
  rule.inList ≠ [] → number ∈ rule.inList

/-- The array is not empty if it must not be and has a length within the bounds that are set. -/
structure ArrayRule.Holds (rule : ArrayRule) (length : Nat) : Prop where
  notEmpty : rule.notEmpty → length ≠ 0
  minLen : ∀ bound ∈ rule.minLen, bound.toNat ≤ length
  maxLen : ∀ bound ∈ rule.maxLen, length ≤ bound.toNat

/-- The same, with an upper bound of 0 ignored. -/
structure ArrayRule.HoldsUnlessZero (rule : ArrayRule) (length : Nat) : Prop where
  notEmpty : rule.notEmpty → length ≠ 0
  minLen : ∀ bound ∈ rule.minLen, bound.toNat ≤ length
  maxLen : ∀ bound ∈ rule.maxLen, bound.toNat ≠ 0 → length ≤ bound.toNat

section

variable {F D τ : Type} [LinearOrder F] [LinearOrder D]

namespace FieldDescriptor

/-- The rule of the kind of the field, if it is set, holds of the field in the message. -/
def RuleHolds (regexMatch : String → List UInt8 → Bool) (arrayHolds : ArrayRule → Nat → Prop)
    (field : FieldDescriptor F D τ) (index : Nat) (message : Message F D) : Prop :=
  if field.isRepeated then
    match field.rules with
    | .array rule => arrayHolds rule (message.values index).length
    | _ => True
  else
    match field.cppType, field.rules with
    | .int32 default, .int32 rule => rule.Holds (message.getInt32 default index)
    | .int64 default, .int64 rule => rule.Holds (message.getInt64 default index)
    | .uint32 default, .uint32 rule => rule.Holds (message.getUInt32 default index)
    | .uint64 default, .uint64 rule => rule.Holds (message.getUInt64 default index)
    | .float default, .float rule => rule.Holds (message.getFloat default index)
    | .double default, .double rule => rule.Holds (message.getDouble default index)
    | .string default, .string rule => rule.Holds regexMatch (message.getString default index)
    | .enum default, .enum rule => rule.Holds (message.getEnum default index)
    | _, _ => True

/-- An array whose upper bound is set to 0 is empty. -/
def ZeroBoundHolds (field : FieldDescriptor F D τ) (index : Nat) (message : Message F D) : Prop :=
  field.isRepeated → ∀ rule, field.rules = .array rule → rule.maxLen = some 0 →
    message.values index = []

/-- The sub-messages of a field with their type: every element of a repeated field, and the value
or the default instance of a singular one. -/
def subMessages (field : FieldDescriptor F D τ) (index : Nat) (message : Message F D) :
    List (τ × Message F D) :=
  match field.cppType with
  | .message type =>
    if field.isRepeated then (message.repeatedMessages index).map (type, ·)
    else [(type, message.getMessage index)]
  | _ => []

end FieldDescriptor

/-- Every field of the message and of all messages below it passes the check. -/
inductive Throughout (schema : Schema F D τ)
    (check : FieldDescriptor F D τ → Nat → Message F D → Prop) : τ → Message F D → Prop
  | intro {type : τ} {message : Message F D}
      (here : ∀ entry ∈ (schema type).zipIdx, check entry.1 entry.2 message)
      (below : ∀ entry ∈ (schema type).zipIdx, ∀ sub ∈ entry.1.subMessages entry.2 message,
        Throughout schema check sub.1 sub.2) : Throughout schema check type message

/-- The first type occurs as the type of a field of the second. -/
def Occurs (schema : Schema F D τ) (inner outer : τ) : Prop :=
  ∃ field ∈ schema outer, field.cppType = .message inner

/-- The first type occurs as the type of a singular field of the second. -/
def OccursSingly (schema : Schema F D τ) (inner outer : τ) : Prop :=
  ∃ field ∈ schema outer, field.isRepeated = false ∧ field.cppType = .message inner

/-- The first is a sub-message of a field of the second, with its type. -/
def Below (schema : Schema F D τ) (sub outer : τ × Message F D) : Prop :=
  ∃ entry ∈ (schema outer.1).zipIdx, sub ∈ entry.1.subMessages entry.2 outer.2

/-- Every rule holds at every nesting depth. -/
def Satisfies (regexMatch : String → List UInt8 → Bool) (schema : Schema F D τ) :
    τ → Message F D → Prop :=
  Throughout schema (FieldDescriptor.RuleHolds regexMatch ArrayRule.Holds)

/-- Every rule holds at every nesting depth, upper bounds of arrays that are set to 0 apart. -/
def SatisfiesUnlessZero (regexMatch : String → List UInt8 → Bool) (schema : Schema F D τ) :
    τ → Message F D → Prop :=
  Throughout schema (FieldDescriptor.RuleHolds regexMatch ArrayRule.HoldsUnlessZero)

/-- Every array whose upper bound is set to 0 is empty, at every nesting depth. -/
def SatisfiesZeroBounds (schema : Schema F D τ) : τ → Message F D → Prop :=
  Throughout schema FieldDescriptor.ZeroBoundHolds

end

namespace ValidatorUtil

/-- The outcome is a result, which is valid exactly under the condition. -/
def Decides (outcome : Option ValidateResult) (condition : Prop) : Prop :=
  ∃ result, outcome = some result ∧ (result.isValid = true ↔ condition)

theorem decides_some {result : ValidateResult} {condition : Prop}
    (decides : result.isValid = true ↔ condition) : Decides (some result) condition :=
  ⟨result, rfl, decides⟩

theorem Decides.congr {out : Option ValidateResult} {condition other : Prop}
    (decides : Decides out condition) (same : condition ↔ other) : Decides out other := by
  obtain ⟨result, outcome_eq, valid_iff⟩ := decides
  exact ⟨result, outcome_eq, valid_iff.trans same⟩

variable {α : Type}

theorem validateAll_decides {check : α → Option ValidateResult} {passes : α → Prop}
    {items : List α} (each : ∀ item ∈ items, Decides (check item) (passes item)) :
    Decides (validateAll check items) (∀ item ∈ items, passes item) := by
  induction items with
  | nil => exact decides_some (by simp [valid])
  | cons item items ih =>
    obtain ⟨first, rest⟩ := forall_mem_cons.mp each
    obtain ⟨result, check_eq, valid_iff⟩ := first
    rw [validateAll, check_eq, bind_some]
    split
    · next passed =>
      refine (ih rest).congr ?_
      rw [forall_mem_cons, ← valid_iff]
      simp [passed]
    · next failed =>
      refine decides_some ?_
      rw [forall_mem_cons, ← valid_iff]
      simp [failed]

theorem isValid_ite {broken : Prop} [Decidable broken] {msg : String} {rest : ValidateResult} :
    (if broken then (⟨false, msg⟩ : ValidateResult) else rest).isValid = true ↔
      ¬broken ∧ rest.isValid = true := by
  split
  · next yes => simp [yes]
  · next no => simp [no]

theorem not_any_iff {bound : Option α} {breaks : α → Bool} :
    ¬bound.any breaks = true ↔ ∀ value ∈ bound, ¬breaks value = true := by
  cases bound with
  | none | some => simp

theorem not_outside_iff [BEq α] [LawfulBEq α] {allowed : List α} {value : α} :
    ¬(!allowed.isEmpty && !allowed.contains value) = true ↔ (allowed ≠ [] → value ∈ allowed) := by
  cases allowed with
  | nil => simp
  | cons first rest => simp [or_iff_not_imp_left]

theorem not_inside_iff [BEq α] [LawfulBEq α] {forbidden : List α} {value : α} :
    ¬(!forbidden.isEmpty && forbidden.contains value) = true ↔ value ∉ forbidden := by
  cases forbidden with
  | nil | cons => simp

theorem numericalValidator_isValid_iff [LE α] [LT α] [DecidableLE α] [DecidableLT α]
    [DecidableEq α] [Std.IsLinearOrder α] [Std.LawfulOrderLT α] (fullName : String)
    (rule : NumericRule α) (value : α) :
    (numericalValidator fullName rule value).isValid = true ↔ rule.Holds value := by
  rw [numericalValidator, isValid_ite, isValid_ite]
  simp only [Bool.or_eq_true, not_or, not_any_iff, not_outside_iff, not_inside_iff,
    decide_eq_true_eq, ge_iff_le, gt_iff_lt, Std.not_le, Std.not_lt]
  constructor
  · rintro ⟨⟨⟨⟨lt, lte⟩, gt⟩, gte⟩, ⟨inList, notIn⟩, -⟩
    exact ⟨lt, lte, gt, gte, inList, notIn⟩
  · intro holds
    exact ⟨⟨⟨⟨holds.lt, holds.lte⟩, holds.gt⟩, holds.gte⟩, ⟨holds.inList, holds.notIn⟩, rfl⟩

theorem stringValidator_isValid_iff (regexMatch : String → List UInt8 → Bool) (fullName : String)
    (rule : StringRule) (value : List UInt8) :
    (stringValidator regexMatch fullName rule value).isValid = true ↔
      rule.Holds regexMatch value := by
  rw [stringValidator, isValid_ite, isValid_ite, isValid_ite]
  simp only [Bool.or_eq_true, not_or, not_any_iff, decide_eq_true_eq, gt_iff_lt, not_lt]
  constructor
  · rintro ⟨notEmpty, ⟨minLen, maxLen⟩, pattern, -⟩
    refine ⟨by simpa using notEmpty, minLen, maxLen, ?_⟩
    simpa using pattern
  · intro holds
    refine ⟨by simpa using holds.notEmpty, ⟨holds.minLen, holds.maxLen⟩, ?_, rfl⟩
    simpa using holds.pattern

theorem enumValidator_isValid_iff (fullName : String) (rule : EnumRule) (number : Int32) :
    (enumValidator fullName rule number).isValid = true ↔ rule.Holds number := by
  rw [enumValidator, isValid_ite, not_outside_iff, EnumRule.Holds]
  exact and_iff_left rfl

theorem not_breaks_iff (limit : Option UInt32) (breaks : Nat → Prop) [DecidablePred breaks] :
    ¬((limit.getD 0).toNat != 0 && decide (breaks (limit.getD 0).toNat)) = true ↔
      ∀ bound ∈ limit, bound.toNat ≠ 0 → ¬breaks bound.toNat := by
  cases limit <;> simp

theorem arrayRuleValidator_isValid_iff (fullName : String) (rule : ArrayRule) (arrLen : Nat) :
    (arrayRuleValidator fullName rule arrLen).isValid = true ↔ rule.HoldsUnlessZero arrLen := by
  simp only [arrayRuleValidator, isValid_ite]
  rw [Bool.or_eq_true, not_or, not_breaks_iff _ (arrLen < ·), not_breaks_iff _ (arrLen > ·)]
  constructor
  · rintro ⟨notEmpty, ⟨minLen, maxLen⟩, -⟩
    refine ⟨by simpa using notEmpty, fun bound given => ?_, fun bound given nonzero => ?_⟩
    · have := minLen bound given
      omega
    · exact not_lt.mp (maxLen bound given nonzero)
  · intro holds
    refine ⟨by simpa using holds.notEmpty, ⟨fun bound given _ => ?_, fun bound given nonzero => ?_⟩,
      rfl⟩
    · exact not_lt.mpr (holds.minLen bound given)
    · exact not_lt.mpr (holds.maxLen bound given nonzero)

section

variable {F D τ : Type} {recurse : τ → Message F D → Option ValidateResult}
  {passes : τ → Message F D → Prop} {field : FieldDescriptor F D τ} {index : Nat}
  {message : Message F D}

theorem decides_leaf {β : Type} {result : ValidateResult} {holds : Prop} {later : β → Prop}
    (decides : result.isValid = true ↔ holds) :
    Decides (some result) (holds ∧ ∀ sub ∈ ([] : List β), later sub) :=
  decides_some (by simpa using decides)

variable (below : ∀ sub ∈ field.subMessages index message,
  Decides (recurse sub.1 sub.2) (passes sub.1 sub.2))
include below

theorem elements_decides (repeats : field.isRepeated = true) : Decides (match field.cppType with
      | .message type => validateAll (recurse type) (message.repeatedMessages index)
      | _ => some valid)
      (∀ sub ∈ field.subMessages index message, passes sub.1 sub.2) := by
  rw [subMessages] at below ⊢
  split
  · next type type_eq =>
    simp only [type_eq, if_pos repeats, List.forall_mem_map] at below ⊢
    exact validateAll_decides below
  · exact decides_some (by simp [valid])

variable [LinearOrder F] [LinearOrder D] {regexMatch : String → List UInt8 → Bool}

theorem arrayValidator_decides (repeats : field.isRepeated = true) :
    Decides (arrayValidator recurse field index message)
      (field.RuleHolds regexMatch ArrayRule.HoldsUnlessZero index message ∧
        ∀ sub ∈ field.subMessages index message, passes sub.1 sub.2) := by
  have rule_iff : (arrayLengthValidator field (message.values index).length).isValid = true ↔
      field.RuleHolds regexMatch ArrayRule.HoldsUnlessZero index message := by
    rw [arrayLengthValidator, FieldDescriptor.RuleHolds, if_pos repeats]
    cases field.rules with
    | array rule => exact arrayRuleValidator_isValid_iff _ _ _
    | _ => exact iff_of_true rfl trivial
  rw [arrayValidator, ← rule_iff]
  split
  · next kept => exact (elements_decides below repeats).congr (by simp [kept])
  · next broken => exact decides_some (by simp [broken])

theorem validateField_decides : Decides (validateField regexMatch recurse message field index)
      (field.RuleHolds regexMatch ArrayRule.HoldsUnlessZero index message ∧
        ∀ sub ∈ field.subMessages index message, passes sub.1 sub.2) := by
  rw [validateField]
  split
  · next repeats => exact arrayValidator_decides below repeats
  · next single =>
    rw [FieldDescriptor.RuleHolds, if_neg single]
    rw [subMessages] at below ⊢
    split
    case h_7 default rule type_eq rules_eq =>
      simp only [type_eq, rules_eq]
      exact decides_leaf (stringValidator_isValid_iff _ _ _ _)
    case h_8 default rule type_eq rules_eq =>
      simp only [type_eq, rules_eq]
      exact decides_leaf (enumValidator_isValid_iff _ _ _)
    case h_9 type type_eq =>
      simp only [type_eq, if_neg single, forall_mem_singleton] at below ⊢
      exact below.congr (by simp)
    case h_10 =>
      refine decides_some (iff_of_true rfl ⟨?_, ?_⟩)
      · split <;> simp_all
      · split <;> simp_all
    all_goals
      next default rule type_eq rules_eq =>
        simp only [type_eq, rules_eq]
        exact decides_leaf (numericalValidator_isValid_iff _ _ _)

end

section

variable {F D τ : Type} {schema : Schema F D τ} {message : Message F D}

theorem cppType_of_mem_subMessages {field : FieldDescriptor F D τ} {index : Nat}
    {sub : τ × Message F D} (mem : sub ∈ field.subMessages index message) :
    field.cppType = .message sub.1 := by
  rw [subMessages] at mem
  split at mem
  · next type type_eq =>
    rw [type_eq]
    split at mem
    · obtain ⟨item, -, rfl⟩ := mem_map.mp mem
      rfl
    · rw [mem_singleton.mp mem]
  · exact absurd mem not_mem_nil

theorem acc_below_of_occurs {type : τ} (finite : Acc (Occurs schema) type) (message : Message F D) :
    Acc (Below schema) (type, message) := by
  refine Subrelation.accessible ?_ (InvImage.accessible Prod.fst finite)
  rintro sub outer ⟨entry, mem, sub_mem⟩
  exact ⟨entry.1, fst_mem_of_mem_zipIdx mem, cppType_of_mem_subMessages sub_mem⟩

theorem sizeOf_ofValue_lt {index : Nat} {value : FieldValue F D}
    (value_mem : value ∈ message.values index) :
    sizeOf ((ofValue value).getD defaultInstance) < sizeOf message := by
  obtain ⟨fields⟩ := message
  rw [Message.values, getD_eq_getElem?_getD] at value_mem
  cases found : fields[index]? with
  | none => simp [found] at value_mem
  | some values =>
    rw [found, getD_some] at value_mem
    have outer := sizeOf_lt_of_mem (mem_of_getElem? found)
    have inner := sizeOf_lt_of_mem value_mem
    cases value <;> simp [ofValue, defaultInstance] at inner ⊢ <;> omega

/-- A sub-message is smaller, but for the default instance in a singular field of itself. -/
theorem sizeOf_sub_lt {field : FieldDescriptor F D τ} {index : Nat} {sub : τ × Message F D}
    (sub_mem : sub ∈ field.subMessages index message) :
    sizeOf sub.2 < sizeOf message ∨ field.isRepeated = false ∧ sub.2 = message := by
  rw [subMessages] at sub_mem
  split at sub_mem
  · split at sub_mem
    · obtain ⟨item, mem, rfl⟩ := mem_map.mp sub_mem
      obtain ⟨value, value_mem, rfl⟩ := mem_map.mp mem
      exact .inl (sizeOf_ofValue_lt value_mem)
    · next single =>
      rw [mem_singleton.mp sub_mem, Message.getMessage, Message.get]
      cases values : message.values index with
      | cons value _ => exact .inl (sizeOf_ofValue_lt (values ▸ mem_cons_self))
      | nil =>
        obtain ⟨fields⟩ := message
        cases fields with
        | nil => exact .inr ⟨by simpa using single, rfl⟩
        | cons _ tail => exact .inl (by cases tail <;> simp [defaultInstance] <;> omega)
  · exact absurd sub_mem not_mem_nil

theorem acc_below_of_singly (finite : WellFounded (OccursSingly schema)) (type : τ)
    (message : Message F D) : Acc (Below schema) (type, message) := by
  induction size : sizeOf message using Nat.strong_induction_on generalizing type message with
  | _ bound smaller =>
    induction type using finite.induction with
    | _ type inner =>
      refine ⟨_, ?_⟩
      rintro ⟨sub, subMessage⟩ ⟨entry, mem, sub_mem⟩
      rcases sizeOf_sub_lt sub_mem with less | ⟨single, rfl⟩
      · exact smaller _ (size ▸ less) sub subMessage rfl
      · exact inner sub ⟨entry.1, fst_mem_of_mem_zipIdx mem, single,
          cppType_of_mem_subMessages sub_mem⟩

theorem throughout_iff {check : FieldDescriptor F D τ → Nat → Message F D → Prop} {type : τ} :
    Throughout schema check type message ↔
      ∀ entry ∈ (schema type).zipIdx, check entry.1 entry.2 message ∧
        ∀ sub ∈ entry.1.subMessages entry.2 message, Throughout schema check sub.1 sub.2 := by
  constructor
  · rintro ⟨here, below⟩ entry mem
    exact ⟨here entry mem, below entry mem⟩
  · intro each
    exact ⟨fun entry mem => (each entry mem).1,
      fun entry mem => (each entry mem).2⟩

theorem throughout_and_iff {check first second : FieldDescriptor F D τ → Nat → Message F D → Prop}
    (split : ∀ field index message,
      check field index message ↔ first field index message ∧ second field index message)
    {type : τ} :
    Throughout schema check type message ↔
      Throughout schema first type message ∧ Throughout schema second type message := by
  constructor
  · intro all
    induction all with
    | intro here _ ih =>
      exact ⟨⟨fun entry mem => ((split _ _ _).mp (here entry mem)).1,
          fun entry mem sub sub_mem => (ih entry mem sub sub_mem).1⟩,
        ⟨fun entry mem => ((split _ _ _).mp (here entry mem)).2,
          fun entry mem sub sub_mem => (ih entry mem sub sub_mem).2⟩⟩
  · rintro ⟨left, right⟩
    induction left with
    | intro here _ ih =>
      obtain ⟨here', below'⟩ := right
      exact ⟨fun entry mem =>
          (split _ _ _).mpr ⟨here entry mem, here' entry mem⟩,
        fun entry mem sub sub_mem =>
          ih entry mem sub sub_mem (below' entry mem sub sub_mem)⟩

theorem exists_depth_forall_mem {α : Type} {holds : α → Nat → Prop} (items : List α)
    (each : ∀ item ∈ items, ∃ enough, ∀ depth ≥ enough, holds item depth) :
    ∃ enough, ∀ depth ≥ enough, ∀ item ∈ items, holds item depth := by
  induction items with
  | nil => exact ⟨0, by simp⟩
  | cons item items ih =>
    obtain ⟨first, rest⟩ := forall_mem_cons.mp each
    obtain ⟨here, holds_here⟩ := first
    obtain ⟨later, holds_later⟩ := ih rest
    refine ⟨max here later, fun depth deep => forall_mem_cons.mpr ⟨?_, ?_⟩⟩
    · exact holds_here depth (le_trans (le_max_left here later) deep)
    · exact holds_later depth (le_trans (le_max_right here later) deep)

end

section

variable {F D τ : Type} [LinearOrder F] [LinearOrder D] {regexMatch : String → List UInt8 → Bool}
  {schema : Schema F D τ} {type : τ}

theorem arrayRule_holds_iff {rule : ArrayRule} {length : Nat} :
    rule.Holds length ↔ rule.HoldsUnlessZero length ∧ (rule.maxLen = some 0 → length = 0) := by
  constructor
  · intro holds
    refine ⟨⟨holds.notEmpty, holds.minLen, fun bound set _ => holds.maxLen bound set⟩, ?_⟩
    intro zero
    simpa using holds.maxLen 0 zero
  · rintro ⟨holds, zero⟩
    refine ⟨holds.notEmpty, holds.minLen, fun bound set => ?_⟩
    rcases Nat.eq_zero_or_pos bound.toNat with none | pos
    · obtain rfl : bound = 0 := UInt32.toNat.inj none
      rw [zero set]
      exact zero_le _
    · exact holds.maxLen bound set (ne_of_gt pos)

theorem ruleHolds_iff (field : FieldDescriptor F D τ) (index : Nat) (message : Message F D) :
    field.RuleHolds regexMatch ArrayRule.Holds index message ↔
      field.RuleHolds regexMatch ArrayRule.HoldsUnlessZero index message ∧
        field.ZeroBoundHolds index message := by
  rw [FieldDescriptor.RuleHolds, FieldDescriptor.RuleHolds, FieldDescriptor.ZeroBoundHolds]
  split
  · next repeats =>
    cases field.rules with
    | array rule => simp [arrayRule_holds_iff, repeats]
    | _ => simp
  · next single => simp [single]

variable (regexMatch : String → List UInt8 → Bool)

theorem validate_decides {message : Message F D} (finite : Acc (Below schema) (type, message)) :
    ∃ enough, ∀ depth ≥ enough, Decides (validate regexMatch schema depth type message)
      (SatisfiesUnlessZero regexMatch schema type message) := by
  generalize outer_eq : (type, message) = outer at finite
  induction finite generalizing type message with
  | intro outer _ ih =>
    subst outer_eq
    obtain ⟨enough, inner⟩ := exists_depth_forall_mem
      ((schema type).zipIdx.flatMap fun entry => entry.1.subMessages entry.2 message)
      fun sub sub_mem => ih sub (mem_flatMap.mp sub_mem) rfl
    refine ⟨enough + 1, fun depth deep => ?_⟩
    cases depth with
    | zero => exact absurd deep (not_succ_le_zero enough)
    | succ depth =>
      refine (validateAll_decides fun entry mem => validateField_decides ?_).congr
        throughout_iff.symm
      intro sub sub_mem
      exact inner depth (le_of_succ_le_succ deep) sub
        (mem_flatMap.mpr ⟨entry, mem, sub_mem⟩)

/-- For a type whose nesting is finite, the validator returns, and its result says whether every
rule holds exactly when an array that breaks an upper bound of 0 comes with another broken rule. -/
theorem validate_correct_iff (schema : Schema F D τ) (finite : Acc (Occurs schema) type)
    (message : Message F D) :
    ∃ enough, ∀ depth ≥ enough, ∃ result,
      validate regexMatch schema depth type message = some result ∧
        ((result.isValid = true ↔ Satisfies regexMatch schema type message) ↔
          (SatisfiesUnlessZero regexMatch schema type message →
            SatisfiesZeroBounds schema type message)) := by
  obtain ⟨enough, decides⟩ := validate_decides regexMatch (acc_below_of_occurs finite message)
  refine ⟨enough, fun depth deep => ?_⟩
  obtain ⟨result, validate_eq, valid_iff⟩ := decides depth deep
  refine ⟨result, validate_eq, ?_⟩
  have satisfies_iff : Satisfies regexMatch schema type message ↔
      SatisfiesUnlessZero regexMatch schema type message ∧
        SatisfiesZeroBounds schema type message := throughout_and_iff ruleHolds_iff
  tauto

/-- Where every cycle of types has a repeated field, the validator returns on every message. -/
theorem validate_returns (schema : Schema F D τ) (finite : WellFounded (OccursSingly schema))
    (type : τ) (message : Message F D) :
    ∃ enough, ∀ depth ≥ enough, (validate regexMatch schema depth type message).isSome := by
  obtain ⟨enough, decides⟩ := validate_decides regexMatch (acc_below_of_singly finite type message)
  refine ⟨enough, fun depth deep => ?_⟩
  obtain ⟨result, validate_eq, -⟩ := decides depth deep
  rw [validate_eq, isSome_some]

end

def treeSchema : Schema Int Int Unit := fun _ =>
  [⟨"test.Tree.children", true, .message (), .notSet⟩]

theorem validate_returns_tree : ∃ enough, ∀ depth ≥ enough,
    (validate (fun _ _ => true) treeSchema depth () (.mk [[.message (.mk [])]])).isSome := by
  refine validate_returns _ treeSchema ⟨fun _ => ⟨_, ?_⟩⟩ () _
  rintro _ ⟨field, field_mem, single, -⟩
  rw [mem_singleton.mp field_mem] at single
  cases single

def chainSchema : Schema Int Int Unit := fun _ =>
  [⟨"test.Node.next", false, .message (), .notSet⟩]

/-- The absent successor of a node is a node without successor. -/
theorem not_validate_returns :
    ¬∃ depth result, validate (fun _ _ => true) chainSchema depth () (.mk []) = some result := by
  rintro ⟨depth, result, returned⟩
  have never : validate (fun _ _ => true) chainSchema depth () (.mk []) = none := by
    clear returned
    induction depth with
    | zero => rfl
    | succ depth ih => exact congrArg (bind · _) ih
  cases never.symm.trans returned

/-- A message type with one repeated field that must stay empty. -/
def emptyArraySchema : Schema Int Int Unit := fun _ =>
  [⟨"test.Request.ids", true, .int32 0, .array ⟨false, none, some 0⟩⟩]

/-- An order of a user with up to three items, whose number is between 0 and 10 and whose ids must
stay empty. -/
def orderSchema : Schema Int Int Bool
  | true => [⟨"test.Order.user", false, .string [], .string ⟨true, some 2, some 8, ""⟩⟩,
      ⟨"test.Order.items", true, .message false, .array ⟨true, none, some 3⟩⟩]
  | false => [⟨"test.Item.count", false, .int32 0,
        .int32 ⟨some 10, none, some 0, none, [], []⟩⟩,
      ⟨"test.Item.ids", true, .int32 0, .array ⟨false, none, some 0⟩⟩]

def order : Message Int Int :=
  .mk [[.string [97, 98]], [.message (.mk [[.int32 3]]), .message (.mk [[.int32 9], []])]]

theorem acc_orderSchema : Acc (Occurs orderSchema) true := by
  have item : Acc (Occurs orderSchema) false := by
    refine ⟨false, fun inner occurs => ?_⟩
    obtain ⟨field, mem, type_eq⟩ := occurs
    simp only [orderSchema, mem_cons, not_mem_nil, or_false] at mem
    rcases mem with rfl | rfl <;> cases type_eq
  refine ⟨true, fun inner occurs => ?_⟩
  obtain ⟨field, mem, type_eq⟩ := occurs
  simp only [orderSchema, mem_cons, not_mem_nil, or_false] at mem
  rcases mem with rfl | rfl
  · cases type_eq
  · cases type_eq
    exact item

theorem satisfies_order : Satisfies (fun _ _ => true) orderSchema true order := by
  have item : ∀ message ∈ [Message.mk [[.int32 3]], .mk [[.int32 9], []]],
      Satisfies (fun _ _ => true) orderSchema false message := by
    simp only [mem_cons, not_mem_nil, or_false, Satisfies]
    rintro message (rfl | rfl)
    all_goals
      refine throughout_iff.mpr ?_
      simp only [orderSchema, zipIdx_cons, zipIdx_nil, forall_mem_cons, not_mem_nil,
        FieldDescriptor.subMessages, IsEmpty.forall_iff, implies_true, and_true]
      refine ⟨⟨?_, nofun, ?_, nofun, by decide, by decide⟩, ⟨by decide, nofun, ?_⟩⟩
      all_goals
        rintro _ ⟨⟩
        decide
  refine throughout_iff.mpr ?_
  simp only [orderSchema, zipIdx_cons, zipIdx_nil, forall_mem_cons, not_mem_nil,
    FieldDescriptor.subMessages, IsEmpty.forall_iff, implies_true, and_true]
  refine ⟨⟨by decide, ?_, ?_, by decide⟩, ⟨by decide, nofun, ?_⟩, ?_⟩
  case _ | _ | _ =>
    rintro _ ⟨⟩
    decide
  intro sub sub_mem
  obtain ⟨message, message_mem, rfl⟩ := mem_map.mp sub_mem
  exact item message message_mem

/-- An order whose rules hold, its own and those of its items, is valid. -/
theorem validate_correct_order : ∃ depth result,
    validate (fun _ _ => true) orderSchema depth true order = some result ∧
      result.isValid = true := by
  obtain ⟨enough, correct⟩ :=
    validate_correct_iff (fun _ _ => true) orderSchema acc_orderSchema order
  obtain ⟨result, validate_eq, correct_iff⟩ := correct enough (le_refl enough)
  have zeroBounds := ((throughout_and_iff ruleHolds_iff).mp satisfies_order).2
  exact ⟨enough, result, validate_eq, (correct_iff.mpr fun _ => zeroBounds).mpr satisfies_order⟩

/-- An element of an array that must stay empty is accepted. -/
theorem not_validate_correct :
    validate (fun _ _ => true) emptyArraySchema 1 () (.mk [[.int32 7]]) = some ⟨true, ""⟩ ∧
      ¬Satisfies (fun _ _ => true) emptyArraySchema () (.mk [[.int32 7]]) := by
  refine ⟨rfl, fun satisfies => ?_⟩
  obtain ⟨here, -⟩ := satisfies
  have holds := here _ mem_cons_self
  exact absurd (holds.maxLen 0 rfl) (by decide)

end ValidatorUtil
end McBrpc
