import McBrpc.Brpc.RedisCommand

/-!
# Reading redis commands back

A parser that waits for the rest of a well-formed command is in a state described by `midway`, and
what it waits for by `Pending`.  The stores of a `Connection` are in range as long as each announced
count is positive and fits an `int`.
-/

namespace McBrpc

open List
namespace Redis

open Feeding Execution

namespace RedisCommandParser

section Turns

variable {parser : RedisCommandParser}

theorem turn_cases (parser : RedisCommandParser) (buf : List UInt8) :
    (∃ count rest, readItem parser.parsingArray buf = .announce count rest ∧
      parser.turn buf = .again (parser.announce count) rest) ∨
    (∃ data rest, readItem parser.parsingArray buf = .argument data true rest ∧
      (parser.index : Int) + 1 < parser.length ∧
        parser.turn buf = .again { parser.store data with index := parser.index + 1 } rest) ∨
    (∃ data rest, readItem parser.parsingArray buf = .argument data true rest ∧
      parser.turn buf = .stop (.done (.ok (parser.store data).args) {} rest)) ∨
    (∃ data rest, readItem parser.parsingArray buf = .argument data false rest ∧
      parser.turn buf = .stop (.done (.failed .absolutelyWrong) (parser.store data) rest)) ∨
    parser.turn buf = .stop (.more parser buf) ∨
    ∃ error, parser.turn buf = .stop (.done (.failed error) parser buf) := by
  cases item : readItem parser.parsingArray buf with
  | incomplete | refused | announce => simp [turn, item]
  | argument data terminated rest =>
    cases terminated with
    | false => simp [turn, item]
    | true =>
      by_cases more : (parser.index : Int) + 1 < parser.length
      · simp [turn, item, store, more]
      · simp [turn, item, store, more]

theorem turn_shrinks : Shrinks turn := by
  intro parser buf later rest round
  obtain ⟨count, behind, item, again⟩ | ⟨data, behind, item, -, again⟩ | ⟨_, _, -, stops⟩ |
    ⟨_, _, -, stops⟩ | stops | ⟨_, stops⟩ := turn_cases parser buf
  · rw [again, Turn.again.injEq] at round
    obtain ⟨rfl, rfl⟩ := round
    exact readItem_shrinks (.inl ⟨count, item⟩)
  · rw [again, Turn.again.injEq] at round
    obtain ⟨rfl, rfl⟩ := round
    exact readItem_shrinks (.inr ⟨data, true, item⟩)
  all_goals
    rw [stops] at round
    simp at round

theorem turn_append (parser : RedisCommandParser) {first second : List UInt8}
    (nonblank : NonBlank (first ++ second)) :
    match turn parser first with
    | .again later rest => turn parser (first ++ second) = .again later (rest ++ second)
    | .stop (.more later rest) => later = parser ∧ rest = first
    | .stop (.done answer later rest) =>
      turn parser (first ++ second) = .stop (.done answer later (rest ++ second)) := by
  obtain incomplete | same := readItem_append parser.parsingArray nonblank
  · simp [turn, incomplete]
  · unfold turn
    rw [same]
    cases item : readItem parser.parsingArray first with
    | incomplete => exact ⟨rfl, rfl⟩
    | refused error =>
      -- nothing is taken from the buffer
      simp [Item.extend]
    | announce count rest => simp [Item.extend]
    | argument data terminated rest =>
      simp only [Item.extend]
      cases terminated with
      | false => simp
      | true =>
        by_cases more : ((parser.store data).index : Int) + 1 < (parser.store data).length
        · simp [more]
        · simp [more]

theorem turn_resumes {good : RedisCommandParser → List UInt8 → Prop}
    (nonblank : ∀ parser buf, good parser buf → NonBlank buf)
    (keeps : ∀ parser buf later rest, good parser buf → turn parser buf = .again later rest →
      good later rest) : TurnResumes turn good := by
  intro parser first second isGood
  have both := turn_append parser (nonblank _ _ isGood)
  cases round : turn parser first with
  | again later rest =>
    rw [round] at both
    exact ⟨both, keeps _ _ _ _ isGood both⟩
  | stop out =>
    rw [round] at both
    cases out <;> exact both

end Turns

/-- The parser after the header of a command and after storing some of its arguments. -/
def midway (stored : List (List UInt8)) (missing : Nat) : RedisCommandParser :=
  { parsingArray := true
    length := ((stored.length + missing : Nat) : Int)
    index := stored.length
    args := stored ++ List.replicate missing [] }

/-- The arguments as they are stored: the very first one is the command name, in lower case. -/
def asStored (first : Bool) : List (List UInt8) → List (List UInt8)
  | [] => []
  | data :: rest => (if first then data.map tolower else data) :: rest

/-- The parser waits for these components, of which each can be announced. -/
inductive Pending : RedisCommandParser → List (List UInt8) → List UInt8 → Prop where
  | header {components : List (List UInt8)} (some : components ≠ [])
      (count : components.length < 2147483648)
      (lengths : ∀ data ∈ components, data.length ≤ 4294967295) :
      Pending {} (asStored true components) (redisCommandByComponents components)
  | arguments {stored components : List (List UInt8)} (some : components ≠ [])
      (count : stored.length + components.length < 2147483648)
      (lengths : ∀ data ∈ components, data.length ≤ 4294967295) :
      Pending (midway stored components.length)
        (stored ++ asStored (stored == []) components) (components.flatMap bulkString)

theorem announce_eq_midway {count : Nat} (small : count < 2147483648) :
    announce {} count = midway [] count := by
  have narrow : Int.bmod count 4294967296 = count := by
    rw [Int.bmod_def]
    omega
  simp [announce, midway, resize, narrow]

theorem store_midway (stored : List (List UInt8)) (missing : Nat) (data : List UInt8) :
    store (midway stored (missing + 1)) data =
      { midway stored (missing + 1) with
        args := stored ++ asStored (stored == []) [data] ++ List.replicate missing [] } := by
  cases stored with
  | nil | cons => simp [store, midway, asStored, replicate_succ]

theorem turn_header {parts : List (List UInt8)} (count : parts.length < 2147483648)
    (tail : List UInt8) :
    turn {} (redisCommandByComponents parts ++ tail) =
      .again (midway [] parts.length) (parts.flatMap bulkString ++ tail) := by
  have item := readItem_array (Nat.lt_trans count (by decide) : parts.length < 2 ^ 63)
    (parts.flatMap bulkString ++ tail)
  simp [turn, redisCommandByComponents, item, announce_eq_midway count]

variable {parser : RedisCommandParser} {data bytes : List UInt8} {args : List (List UInt8)}

theorem turn_bulkString (parsing : parser.parsingArray = true) (short : data.length ≤ 4294967295)
    (tail : List UInt8) :
    turn parser (bulkString data ++ tail) =
      if (parser.index : Int) + 1 < parser.length then
        .again { parser.store data with index := parser.index + 1 } tail
      else .stop (.done (.ok (parser.store data).args) {} tail) := by
  simp only [turn, parsing, readItem_bulkString short tail, Bool.true_eq_false, if_false]
  rfl

theorem turn_argument (short : data.length ≤ 4294967295) (stored : List (List UInt8))
    (missing : Nat) (tail : List UInt8) :
    turn (midway stored (missing + 2)) (bulkString data ++ tail) =
      .again (midway (stored ++ asStored (stored == []) [data]) (missing + 1)) tail := by
  have more : ((midway stored (missing + 2)).index : Int) + 1 <
      (midway stored (missing + 2)).length := by
    simp only [midway]
    omega
  rw [turn_bulkString rfl short, if_pos more, store_midway]
  simp only [midway, asStored, length_append, length_cons, length_nil]
  congr 3
  omega

theorem turn_last (short : data.length ≤ 4294967295) (stored : List (List UInt8))
    (tail : List UInt8) :
    turn (midway stored 1) (bulkString data ++ tail) =
      .stop (.done (.ok (stored ++ asStored (stored == []) [data])) {} tail) := by
  have last : ¬((midway stored 1).index : Int) + 1 < (midway stored 1).length := by
    simp only [midway]
    omega
  rw [turn_bulkString rfl short, if_neg last, store_midway stored 0]
  simp

theorem append_asStored (stored : List (List UInt8)) (data : List UInt8)
    (rest : List (List UInt8)) :
    stored ++ asStored (stored == []) (data :: rest) =
      (stored ++ asStored (stored == []) [data]) ++
        asStored (stored ++ asStored (stored == []) [data] == []) rest := by
  cases rest with
  | nil | cons => simp [asStored]

theorem Pending.nonBlank (pending : Pending parser args bytes) (tail : List UInt8) :
    NonBlank (bytes ++ tail) := by
  cases pending with
  | header => rw [redisCommandByComponents, append_assoc]; exact nonBlank_appendHeader _ _ _
  | @arguments stored parts some =>
    obtain ⟨data, rest, rfl⟩ := exists_cons_of_ne_nil some
    simp only [flatMap_cons, bulkString, append_assoc]
    exact nonBlank_appendHeader _ _ _

theorem Pending.turn (pending : Pending parser args bytes) (tail : List UInt8) :
    (∃ later rest, parser.turn (bytes ++ tail) = .again later (rest ++ tail) ∧
      Pending later args rest) ∨
      parser.turn (bytes ++ tail) = .stop (.done (.ok args) {} tail) := by
  cases pending with
  | @header parts some count lengths =>
    refine .inl ⟨_, _, turn_header count tail, ?_⟩
    have waits : Pending (midway [] parts.length) ([] ++ asStored ([] == []) parts)
        (parts.flatMap bulkString) := .arguments some (by simpa using count) lengths
    exact waits
  | @arguments stored parts some count lengths =>
    obtain ⟨data, rest, rfl⟩ := exists_cons_of_ne_nil some
    have short := lengths data (by simp)
    rw [append_asStored]
    cases rest with
    | nil =>
      right
      have last := turn_last short stored tail
      simpa [asStored] using last
    | cons next rest =>
      left
      refine ⟨midway (stored ++ asStored (stored == []) [data]) (rest.length + 1),
        (next :: rest).flatMap bulkString, ?_, .arguments (cons_ne_nil next rest) ?_ ?_⟩
      · have round := turn_argument short stored rest.length
          ((next :: rest).flatMap bulkString ++ tail)
        simpa using round
      · simp only [asStored, length_append, length_cons, length_nil] at count ⊢
        omega
      · exact fun other mem => lengths other (by simp [mem])

/-- The parser waits for the beginning of the input. -/
def Waits (parser : RedisCommandParser) (buf : List UInt8) : Prop :=
  ∃ args bytes tail, Pending parser args bytes ∧ buf = bytes ++ tail

theorem consume_resumes_of_waits : Resumes consume Waits := by
  refine consume_resumes turn_shrinks (turn_resumes ?_ ?_)
  · rintro parser buf ⟨args, bytes, tail, pending, rfl⟩
    exact pending.nonBlank tail
  · rintro parser buf later rest ⟨args, bytes, tail, pending, rfl⟩ round
    obtain ⟨next, left, again, waits⟩ | returns := pending.turn tail
    · rw [again, Turn.again.injEq] at round
      obtain ⟨rfl, rfl⟩ := round
      exact ⟨args, left, tail, waits, rfl⟩
    · rw [returns] at round
      simp at round

theorem consume_pending (pending : Pending parser args bytes) (tail : List UInt8) :
    parser.consume (bytes ++ tail) = .done (.ok args) {} tail := by
  induction size : bytes.length using Nat.strongRecOn generalizing parser bytes with
  | ind n ih =>
    obtain ⟨later, rest, again, waits⟩ | returns := pending.turn tail
    · have shorter := turn_shrinks _ _ _ _ again
      simp only [length_append] at shorter
      exact (consume_again turn_shrinks again).trans (ih _ (by omega) waits rfl)
    · exact consume_stop returns

/-- The limits of the parser: the number of components is an `int`, a length is at most
`2^32 - 1`, and the loop that turns the command name into lower case counts with an `int`. -/
structure WithinLimits (components : List (List UInt8)) : Prop where
  count : components.length < 2147483648
  lengths : ∀ data ∈ components, data.length ≤ 4294967295
  name : ∀ data ∈ components.head?, data.length < 2147483648

theorem feed_of_withinLimits {parts : List (List UInt8)} (some : parts ≠ [])
    (limits : WithinLimits parts) {unread tail : List UInt8} {chunks : List (List UInt8)}
    (arrives : chunks ≠ [])
    (bytes : unread ++ chunks.flatten = redisCommandByComponents parts ++ tail) :
    feed consume {} unread chunks = .done (.ok (asStored true parts)) {} tail := by
  have pending : Pending {} (asStored true parts) (redisCommandByComponents parts) :=
    .header some limits.count limits.lengths
  have waits : Waits {} (unread ++ chunks.flatten) := ⟨_, _, tail, pending, bytes⟩
  rw [feed_eq consume_resumes_of_waits arrives {} unread waits, bytes]
  exact consume_pending pending tail

/-- A command that is written by `RedisCommandByComponents` is read back, whatever the chunks are:
exactly its bytes are taken and the parser is ready for the next command. -/
theorem consume_redisCommandByComponents {components : List (List UInt8)} (some : components ≠ [])
    (limits : WithinLimits components) {tail : List UInt8} {chunks : List (List UInt8)}
    (bytes : chunks.flatten = redisCommandByComponents components ++ tail) :
    feed consume {} [] chunks = .done (.ok (asStored true components)) {} tail := by
  refine feed_of_withinLimits some limits ?_ (by simpa using bytes)
  rintro rfl
  simp [redisCommandByComponents, appendHeader] at bytes

/-- A name and a value that looks like a header, in three chunks. -/
theorem consume_redisCommandByComponents_get :
    feed consume {} [] [[42, 50, 13], [10, 36, 51, 13, 10, 71, 69, 84, 13, 10, 36],
        [52, 13, 10, 36, 49, 13, 10, 13, 10, 42]] =
      .done (.ok [[103, 101, 116], [36, 49, 13, 10]]) {} [42] :=
  @consume_redisCommandByComponents [[71, 69, 84], [36, 49, 13, 10]] (by decide)
    ⟨by decide, by decide, by decide⟩ [42] _ (by decide)

end RedisCommandParser

/-- A parser with the bytes that have arrived, over the life of a connection.  `announced` is the
count in the header of the command being read; the program does not keep it. -/
structure Connection where
  parser : RedisCommandParser := {}
  unread : List UInt8 := []
  announced : Nat := 0
deriving DecidableEq, Repr

/-- Bytes arrive, or `Consume` is entered: called on the connection, or called by itself. -/
inductive Event where
  | receive (chunk : List UInt8)
  | activation
deriving DecidableEq, Repr

namespace Connection

variable (connection : Connection)

/-- The count in the header at the front of the buffer, if a header is expected and there. -/
def header : Option Nat :=
  match readItem connection.parser.parsingArray connection.unread with
  | .announce count _ => some count
  | _ => none

def step : Event → Connection
  | .receive chunk => { connection with unread := connection.unread ++ chunk }
  | .activation =>
    match connection.parser.turn connection.unread with
    | .again parser rest =>
      ⟨parser, rest, connection.header.getD connection.announced⟩
    | .stop (.more parser rest) => { connection with parser := parser, unread := rest }
    | .stop (.done _ parser rest) => { connection with parser := parser, unread := rest }

/-- A header that is read announces at least one argument, and no more than an `int` holds. -/
def countable : Event → Bool
  | .receive _ => true
  | .activation =>
    match connection.header with
    | some count => 0 < count && count < 2147483648
    | none => true

/-- The stores of the next activation are in range, and the command it returns has the announced
number of arguments and leaves a parser that reads the next commands. -/
structure Safe (connection : Connection) : Prop where
  inRange : ∀ data terminated rest,
    readItem connection.parser.parsingArray connection.unread = .argument data terminated rest →
      connection.parser.index < connection.parser.length ∧
        connection.parser.length = connection.parser.args.length
  announced : ∀ args later rest,
    connection.parser.turn connection.unread = .stop (.done (.ok args) later rest) →
      args.length = connection.announced
  ready : ∀ args later rest,
    connection.parser.turn connection.unread = .stop (.done (.ok args) later rest) →
      ∀ components tail chunks, components ≠ [] → RedisCommandParser.WithinLimits components →
        chunks ≠ [] → rest ++ chunks.flatten = redisCommandByComponents components ++ tail →
          feed RedisCommandParser.consume later rest chunks =
            .done (.ok (RedisCommandParser.asStored true components)) {} tail

/-- The bounds fixed by the header: none outside an array. -/
def Bounded : Prop :=
  if connection.parser.parsingArray then
    connection.parser.index < connection.parser.length ∧
      connection.parser.length = connection.parser.args.length ∧
        connection.parser.args.length = connection.announced
  else connection.parser = {}

section Steps

variable {connection : Connection}

theorem bounded_of_parsing (parsing : connection.parser.parsingArray = true) :
    connection.Bounded ↔ connection.parser.index < connection.parser.length ∧
      connection.parser.length = connection.parser.args.length ∧
        connection.parser.args.length = connection.announced := by
  simp [Bounded, parsing]

theorem Bounded.fresh (bound : connection.Bounded)
    (idle : connection.parser.parsingArray = false) : connection.parser = {} := by
  simpa [Bounded, idle] using bound

theorem length_store (parser : RedisCommandParser) (data : List UInt8) :
    (parser.store data).args.length = parser.args.length := by
  simp [RedisCommandParser.store]

theorem Bounded.store (bound : connection.Bounded)
    (parsing : connection.parser.parsingArray = true) {index : Nat} (data unread : List UInt8)
    (inside : (index : Int) < connection.parser.length) :
    Bounded { connection with
      parser := { connection.parser.store data with index := index }, unread := unread } := by
  obtain ⟨-, size, announced⟩ := (bounded_of_parsing parsing).mp bound
  rw [bounded_of_parsing (by simpa [RedisCommandParser.store] using parsing)]
  refine ⟨inside, ?_, (length_store _ _).trans announced⟩
  exact size.trans (by rw [← length_store connection.parser data])

theorem Bounded.announce {count : Nat} (bound : connection.Bounded)
    (idle : connection.parser.parsingArray = false) (some : 0 < count)
    (small : count < 2147483648) (unread : List UInt8) :
    Bounded ⟨connection.parser.announce count, unread, count⟩ := by
  rw [bound.fresh idle, RedisCommandParser.announce_eq_midway small, bounded_of_parsing rfl]
  simpa [RedisCommandParser.midway] using some

theorem bounded_step (event : Event) (countable : connection.countable event)
    (bound : connection.Bounded) : (connection.step event).Bounded := by
  cases event with
  | receive chunk => exact bound
  | activation =>
    have mode := readItem_mode connection.parser.parsingArray connection.unread
    obtain ⟨count, rest, item, again⟩ | ⟨data, rest, item, more, again⟩ | ⟨data, rest, item, stops⟩
      | ⟨data, rest, item, stops⟩ | stops | ⟨error, stops⟩ :=
        connection.parser.turn_cases connection.unread
    · rw [item] at mode
      have found : connection.header = some count := by simp [header, item]
      simp only [Connection.countable, found, Bool.and_eq_true, decide_eq_true_eq] at countable
      simp only [step, again, found, Option.getD_some]
      exact bound.announce mode countable.1 countable.2 rest
    · rw [item] at mode
      have none : connection.header = none := by simp [header, item]
      simp only [step, again, none, Option.getD_none]
      exact bound.store mode data rest (by omega)
    · simp [step, stops, Bounded]
    · rw [item] at mode
      simp only [step, stops]
      exact bound.store mode data rest ((bounded_of_parsing mode).mp bound).1
    · simpa only [step, stops] using bound
    · simpa only [step, stops] using bound

theorem Bounded.safe (bound : connection.Bounded) : connection.Safe := by
  have mode := readItem_mode connection.parser.parsingArray connection.unread
  have returns : ∀ args later rest,
      connection.parser.turn connection.unread = .stop (.done (.ok args) later rest) →
        args.length = connection.announced ∧ later = {} := by
    intro args later rest ended
    obtain ⟨_, _, -, round⟩ | ⟨_, _, -, -, round⟩ | ⟨data, behind, item, round⟩ | ⟨_, _, -, round⟩ |
      round | ⟨_, round⟩ := connection.parser.turn_cases connection.unread
    · simp [round] at ended
    · simp [round] at ended
    · rw [item] at mode
      obtain ⟨-, -, announced⟩ := (bounded_of_parsing mode).mp bound
      rw [round] at ended
      obtain ⟨rfl, rfl, -⟩ := ended
      exact ⟨(length_store _ _).trans announced, rfl⟩
    all_goals simp [round] at ended
  refine ⟨?_, fun args later rest ended => (returns args later rest ended).1, ?_⟩
  · intro data terminated rest item
    rw [item] at mode
    obtain ⟨inside, size, -⟩ := (bounded_of_parsing mode).mp bound
    exact ⟨inside, size⟩
  · intro args later rest ended parts tail chunks some limits arrives bytes
    obtain rfl := (returns args later rest ended).2
    exact RedisCommandParser.feed_of_withinLimits some limits arrives bytes

end Steps

/-- As long as every header announces at least one argument and no more than an `int` holds, every
store is in range, every command has the announced number of arguments, and the parser is ready
for the next command. -/
theorem safe_of_countable (events : List Event)
    (countable : EveryStep step (fun connection event => connection.countable event) {} events) :
    EveryState step Safe {} events := by
  have bounded : EveryState step Bounded {} events :=
    everyState_of_everyStep Bounded rfl
      (fun _ event bounded countable => bounded_step event countable bounded) countable
  exact fun history isPrefix => (bounded history isPrefix).safe

/-- Two commands in three chunks. -/
theorem safe_of_countable_twice :
    EveryState step Safe {} [.receive [42, 49, 13, 10, 36, 49, 13], .activation, .activation,
      .receive [10, 97, 13, 10, 42, 49], .activation, .receive [13, 10, 36, 48, 13, 10, 13, 10],
      .activation, .activation] :=
  safe_of_countable _ (by simp only [everyStep_cons, everyStep_nil]; decide)

/-- A command that announces no argument and brings one: the store is behind the end of the empty
vector. -/
theorem not_safe_zero : ¬EveryState step Safe {}
      [.receive [42, 48, 13, 10, 36, 49, 13, 10, 97, 13, 10], .activation] := by
  intro every
  have stored := (every.final.inRange [97] true [] (by decide)).1
  exact absurd stored (by decide)

end Connection

end Redis
end McBrpc
