import McBrpc.Brpc.RedisNumber
import McBrpc.Library.Execution
import McBrpc.Library.Feeding

/-!
# Redis commands on the server side

`RedisCommandByComponents` writes a command as an array of bulk strings, and
`RedisCommandParser::Consume` reads one back from bytes that arrive in any pieces.  A count of zero,
or one that does not fit an `int`, breaks the bounds that its stores rely on.
-/

namespace McBrpc

open List
namespace Redis

open CNumber Feeding Execution

/-- `tolower` in the C locale. -/
def tolower (c : UInt8) : UInt8 := if 65 ≤ c.toNat ∧ c.toNat ≤ 90 then c + 32 else c

/-- One component as `RedisCommandByComponents` and `FlushComponent` write it. -/
def bulkString (data : List UInt8) : List UInt8 := appendHeader 36 data.length ++ data ++ [13, 10]

def redisCommandByComponents (components : List (List UInt8)) : List UInt8 :=
  appendHeader 42 components.length ++ components.flatMap bulkString

def resize (args : List (List UInt8)) (size : Nat) : List (List UInt8) :=
  args.take size ++ List.replicate (size - args.length) []

/-- The members of the parser.  `_length` is an `int`. -/
structure RedisCommandParser where
  parsingArray : Bool := false
  length : Int := 0
  index : Nat := 0
  args : List (List UInt8) := []
deriving DecidableEq, Repr

/-- What one activation of `Consume` finds at the front of the buffer. -/
inductive Item where
  | incomplete
  | refused (error : ParseError)
  /-- The header of an array. -/
  | announce (count : Nat) (rest : List UInt8)
  /-- A string, and whether CRLF ends it. -/
  | argument (data : List UInt8) (terminated : Bool) (rest : List UInt8)
deriving DecidableEq, Repr

/-- The item with the given number: the size of the array, or the length of a string. -/
def itemOfNumber (parsingArray : Bool) (buf : List UInt8) (value : Int) (size : Nat) : Item :=
  if value < 0 then .refused .absolutelyWrong
  else if parsingArray = false then .announce value.toNat (buf.drop size)
  else if 4294967295 < value then .refused .absolutelyWrong
  else if buf.length < size + value.toNat + 2 then .incomplete
  else
    .argument ((buf.drop size).take value.toNat)
      ((buf.drop (size + value.toNat)).take 2 == [13, 10]) (buf.drop (size + value.toNat + 2))

/-- The part of `Consume` that looks at the buffer. -/
def readItem (parsingArray : Bool) (buf : List UInt8) : Item :=
  match buf with
  | [] => .incomplete
  | fc :: _ =>
    if parsingArray = false ∧ fc ≠ 42 then .refused .tryOthers
    else if parsingArray = true ∧ fc ≠ 36 then .refused .absolutelyWrong
    else
      match peekNumber buf with
      | .incomplete => .incomplete
      | .invalid => .refused .absolutelyWrong
      | .parsed value size => itemOfNumber parsingArray buf value size

/-- What `Consume` returns when it does not ask for more data. -/
inductive Answer where
  | ok (args : List (List UInt8))
  | failed (error : ParseError)
deriving DecidableEq, Repr

namespace RedisCommandParser

variable (parser : RedisCommandParser)

/-- The parser after the header of an array; the count is narrowed to an `int`. -/
def announce (count : Nat) : RedisCommandParser :=
  { parsingArray := true
    length := Int.bmod count 4294967296
    index := 0
    args := resize parser.args count }

/-- `_args[_index].set(d, len)`, the command name in lower case.  A write behind the end of the
vector, which is not defined in the source, is lost here. -/
def store (data : List UInt8) : RedisCommandParser :=
  { parser with
    args := parser.args.set parser.index (if parser.index = 0 then data.map tolower else data) }

/-- One activation of `Consume`. -/
def turn (buf : List UInt8) : Turn RedisCommandParser UInt8 Answer :=
  match readItem parser.parsingArray buf with
  | .incomplete => .stop (.more parser buf)
  | .refused error => .stop (.done (.failed error) parser buf)
  | .announce count rest => .again (parser.announce count) rest
  | .argument data terminated rest =>
    let stored := parser.store data
    if terminated = false then .stop (.done (.failed .absolutelyWrong) stored rest)
    else if (stored.index : Int) + 1 < stored.length then
      .again { stored with index := stored.index + 1 } rest
    else
      -- `args->swap(_args)` and `Reset()`
      .stop (.done (.ok stored.args) {} rest)

def consume (buf : List UInt8) : Outcome RedisCommandParser UInt8 Answer :=
  Feeding.consume turn parser buf

end RedisCommandParser

/-- The same item with more bytes behind it. -/
def Item.extend (tail : List UInt8) : Item → Item
  | .incomplete => .incomplete
  | .refused error => .refused error
  | .announce count rest => .announce count (rest ++ tail)
  | .argument data terminated rest => .argument data terminated (rest ++ tail)

variable (array : Bool)

theorem itemOfNumber_append {buf : List UInt8} (value : Int) {size : Nat}
    (inside : size ≤ buf.length) (tail : List UInt8) :
    itemOfNumber array buf value size = .incomplete ∨
      itemOfNumber array (buf ++ tail) value size =
        (itemOfNumber array buf value size).extend tail := by
  unfold itemOfNumber
  by_cases negative : value < 0
  · simp [negative, Item.extend]
  by_cases header : array = false
  · simp [negative, header, Item.extend, drop_append_of_le_length inside]
  by_cases long : 4294967295 < value
  · simp [negative, header, long, Item.extend]
  by_cases short : buf.length < size + value.toNat + 2
  · simp [negative, header, long, short]
  right
  have enough : ¬(buf ++ tail).length < size + value.toNat + 2 := by
    rw [length_append]
    omega
  simp only [if_neg negative, if_neg header, if_neg long, if_neg short, if_neg enough, Item.extend]
  rw [take_drop_append (by omega), take_drop_append (by omega), drop_append_of_le_length (by omega)]

theorem readItem_typed {array : Bool} {fc : UInt8}
    (first : ¬(array = false ∧ fc ≠ 42)) (second : ¬(array = true ∧ fc ≠ 36)) :
    fc ≠ 13 := by
  rintro rfl
  cases array
  · exact first ⟨rfl, by decide⟩
  · exact second ⟨rfl, by decide⟩

theorem readItem_append {buf tail : List UInt8} (nonblank : NonBlank (buf ++ tail)) :
    readItem array buf = .incomplete ∨
      readItem array (buf ++ tail) = (readItem array buf).extend tail := by
  cases buf with
  | nil => exact .inl rfl
  | cons fc buf =>
    by_cases first : array = false ∧ fc ≠ 42
    · simp [readItem, first, Item.extend]
    by_cases second : array = true ∧ fc ≠ 36
    · simp [readItem, second, Item.extend]
    have typed := readItem_typed first second
    by_cases full : peekNumber (fc :: buf) = .incomplete
    · simp [readItem, first, second, full]
    have same := peekNumber_append typed nonblank full
    simp only [cons_append] at same
    simp only [cons_append, readItem, if_neg first, if_neg second, same]
    cases number : peekNumber (fc :: buf) with
    | incomplete => exact absurd number full
    | invalid => exact .inr rfl
    | parsed value size =>
      exact itemOfNumber_append array value (peekNumber_size typed number).2 tail

theorem readItem_shrinks {array : Bool} {buf rest : List UInt8}
    (found : (∃ count, readItem array buf = .announce count rest) ∨
      ∃ data terminated, readItem array buf = .argument data terminated rest) :
    rest.length < buf.length := by
  cases buf with
  | nil => simp [readItem] at found
  | cons fc buf =>
    by_cases first : array = false ∧ fc ≠ 42
    · simp [readItem, first] at found
    by_cases second : array = true ∧ fc ≠ 36
    · simp [readItem, second] at found
    simp only [readItem, if_neg first, if_neg second] at found
    cases number : peekNumber (fc :: buf) with
    | incomplete => simp [number] at found
    | invalid => simp [number] at found
    | parsed value size =>
      have bound := peekNumber_size (readItem_typed first second) number
      simp only [number, itemOfNumber] at found
      split_ifs at found
      · simp at found
      · obtain rfl : (fc :: buf).drop size = rest := by simpa using found
        rw [length_drop]
        omega
      · simp at found
      · simp at found
      · obtain rfl : (fc :: buf).drop (size + value.toNat + 2) = rest := by
          simpa only [reduceCtorEq, exists_false, false_or, Item.argument.injEq,
            exists_eq_left', exists_and_left, exists_eq_left] using found
        rw [length_drop]
        omega

theorem readItem_mode (buf : List UInt8) : match readItem array buf with
    | .announce _ _ => array = false
    | .argument _ _ _ => array = true
    | _ => True := by
  cases buf with
  | nil => trivial
  | cons fc buf =>
    simp only [readItem]
    by_cases first : array = false ∧ fc ≠ 42
    · simp [first]
    by_cases second : array = true ∧ fc ≠ 36
    · simp [second]
    rw [if_neg first, if_neg second]
    cases peekNumber (fc :: buf) with
    | incomplete => trivial
    | invalid => trivial
    | parsed value size =>
      simp only [itemOfNumber]
      by_cases negative : value < 0
      · simp [negative]
      cases array with
      | false => simp [negative]
      | true =>
        split_ifs <;> trivial

theorem readItem_appendHeader {n : Nat} (small : n < 2 ^ 63) (tail : List UInt8) :
    readItem array (appendHeader (if array then 36 else 42) n ++ tail) =
      itemOfNumber array (appendHeader (if array then 36 else 42) n ++ tail) n
        (appendHeader (if array then 36 else 42) n).length := by
  have typed : (if array then 36 else 42 : UInt8) ≠ 13 := by cases array <;> decide
  have number := peekNumber_appendHeader typed small tail
  simp only [appendHeader, cons_append] at number ⊢
  simp only [readItem, number]
  cases array <;> simp

theorem readItem_array {count : Nat} (small : count < 2 ^ 63) (tail : List UInt8) :
    readItem false (appendHeader 42 count ++ tail) = .announce count tail := by
  have item := readItem_appendHeader false small tail
  simp only [Bool.false_eq_true, if_false] at item
  rw [item]
  simp [itemOfNumber]

theorem readItem_bulkString {data : List UInt8} (short : data.length ≤ 4294967295)
    (tail : List UInt8) : readItem true (bulkString data ++ tail) = .argument data true tail := by
  have shape : bulkString data ++ tail =
      appendHeader 36 data.length ++ (data ++ 13 :: 10 :: tail) := by simp [bulkString]
  have enough : ¬(appendHeader 36 data.length ++ (data ++ 13 :: 10 :: tail)).length <
      (appendHeader 36 data.length).length + data.length + 2 := by
    simp only [length_append, length_cons]
    omega
  have small : data.length < 2 ^ 63 := by omega
  have long : ¬(4294967295 : Int) < data.length := by omega
  have item := readItem_appendHeader true small (data ++ 13 :: 10 :: tail)
  simp only [if_true] at item
  rw [shape, item]
  have natural : ¬(data.length : Int) < 0 := by omega
  simp only [itemOfNumber, Int.toNat_natCast, if_neg natural, if_neg long, if_neg enough,
    ← drop_drop, drop_left, take_left]
  simp

end Redis
end McBrpc
