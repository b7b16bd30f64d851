import McBrpc.Library.CNumber

/-!
# Commands from a format

`RedisCommandFormatV` scans a format: spaces outside quotes and quotes separate components, `%s`
and `%b` append an argument, other conversions what `vsnprintf` prints.  To decide where a component
ends the scanner looks at the component written so far, arguments included.

Over bytes the scanner is the program; over slots it is the layout that the format alone prescribes.
-/

namespace McBrpc

open List
namespace Redis

open CNumber

/-- What one round of the scanner reads from the format. -/
inductive Token where
  /-- A byte that is looked at for spaces and quotes. -/
  | plain (c : UInt8)
  /-- `%%` -/
  | percent
  /-- `%s` -/
  | text
  /-- `%b` -/
  | binary
  /-- A conversion of a number, as it is handed to `vsnprintf`. -/
  | number (spec : List UInt8)
  /-- A conversion of a number too long for `_format`: an argument is skipped, nothing written. -/
  | skipped
deriving DecidableEq, Repr

/-- The flags `#0-+ ` of a conversion. -/
def isFlag (c : UInt8) : Bool := c == 35 || c == 48 || c == 45 || c == 43 || c == 32

/-- The conversions `diouxX`. -/
def isInteger (c : UInt8) : Bool :=
  c == 100 || c == 105 || c == 111 || c == 117 || c == 120 || c == 88

/-- The conversions `eEfFgGaA`. -/
def isDouble (c : UInt8) : Bool :=
  c == 101 || c == 69 || c == 102 || c == 70 || c == 103 || c == 71 || c == 97 || c == 65

/-- The format behind the conversion of a number, at the format behind its `%`. -/
inductive NumberEnd where
  | invalid
  /-- The format ends in the middle: `strchr` finds the NUL that ends the string it searches. -/
  | unfinished
  | valid (after : List UInt8)
deriving DecidableEq, Repr

/-- The integer conversion behind the size `h`, `hh`, `l` or `ll`. -/
def sizedEnd (size : UInt8) : List UInt8 → NumberEnd
  | [] => .invalid
  | c :: rest =>
    if c = size then
      match rest with
      | [] => .invalid
      | d :: after => if isInteger d then .valid after else .invalid
    else if isInteger c then .valid rest
    else .invalid

def skipPrecision : List UInt8 → List UInt8
  | [] => []
  | c :: rest => if c = 46 then rest.dropWhile isdigit else c :: rest

/-- "Try to detect printf format": flags, field width, precision, size and conversion. -/
def numberEnd (format : List UInt8) : NumberEnd :=
  match skipPrecision ((format.dropWhile isFlag).dropWhile isdigit) with
  | [] => .unfinished
  | c :: rest =>
    if isInteger c || isDouble c then .valid rest
    else if c = 104 ∨ c = 108 then sizedEnd c rest
    else .invalid

/-- One round reads a token, or ends the call. -/
inductive Reading where
  | token (token : Token) (rest : List UInt8)
  | invalidFormat
  /-- The scanner steps over the NUL at the end of the format. -/
  | overrun
deriving DecidableEq, Repr

/-- What a round reads at the byte `c` of the format. -/
def readToken (c : UInt8) (rest : List UInt8) : Reading :=
  match rest with
  | [] => .token (.plain c) []
  | d :: after =>
    if c ≠ 37 then .token (.plain c) rest
    else if d = 115 then .token .text after
    else if d = 98 then .token .binary after
    else if d = 37 then .token .percent after
    else
      match numberEnd rest with
      | .invalid => .invalidFormat
      | .unfinished => if rest.length + 2 < 22 then .overrun else .token .skipped after
      | .valid last =>
        let spec := c :: rest.take (rest.length - last.length)
        if spec.length < 22 then .token (.number spec) last else .token .skipped after

/-- What the scanner writes into a component. -/
structure Writer (α : Type) where
  byte : UInt8 → α
  isBackslash : α → Bool
  /-- The conversion with the given number. -/
  conversion : Nat → Token → List α

/-- The variables of the scanner; `components` stands for `nocount_buf` and `ncomponent`. -/
structure Scan (α : Type) where
  components : List (List α) := []
  compbuf : List α := []
  quoteChar : Option UInt8 := none
  quotePos : Nat := 0
  nargs : Nat := 0
deriving DecidableEq, Repr

namespace Scan

variable {α : Type}

def push (state : Scan α) (c : α) : Scan α := { state with compbuf := state.compbuf ++ [c] }

/-- `FlushComponent`. -/
def flush (state : Scan α) : Scan α :=
  { state with components := state.components ++ [state.compbuf], compbuf := [] }

/-- `if (!compbuf.empty()) FlushComponent(...)`. -/
def flushNonempty (state : Scan α) : Scan α :=
  match state.compbuf with
  | [] => state
  | _ :: _ => state.flush

/-- The quote that begins at the given offset of the format. -/
def openQuote (state : Scan α) (offset : Nat) (c : UInt8) : Scan α :=
  { state.flushNonempty with quoteChar := some c, quotePos := offset }

/-- The quote ends the component, or is escaped by a backslash at the end of the component. -/
def closeQuote (writer : Writer α) (state : Scan α) (c : UInt8) : Scan α :=
  if state.compbuf.getLast?.any writer.isBackslash then
    { state with compbuf := state.compbuf.dropLast ++ [writer.byte c] }
  else { state.flush with quoteChar := none }

/-- The byte at the given offset of the format. -/
def plain (writer : Writer α) (state : Scan α) (offset : Nat) (c : UInt8) : Scan α :=
  if c = 32 then
    match state.quoteChar with
    | some _ => state.push (writer.byte c)
    | none => state.flushNonempty
  else if c = 34 ∨ c = 39 then
    match state.quoteChar with
    | none => state.openQuote offset c
    | some quote =>
      if quote = c then state.closeQuote writer c else state.push (writer.byte c)
  else state.push (writer.byte c)

def step (writer : Writer α) (state : Scan α) (offset : Nat) : Token → Scan α
  | .plain c => plain writer state offset c
  | .percent => state.push (writer.byte 37)
  | .skipped => { state with nargs := state.nargs + 1 }
  | token =>
    { state with
      compbuf := state.compbuf ++ writer.conversion state.nargs token
      nargs := state.nargs + 1 }

end Scan

/-- What the call returns: the components of the command, or an error. -/
inductive Formatted (α : Type) where
  | command (components : List (List α))
  /-- `"Unmatched quote: ...%.*s... (offset=%lu)"` -/
  | unmatchedQuote (context : List UInt8) (offset : Nat)
  | invalidFormat
  /-- Bytes behind the end of the format are read. -/
  | overrun
deriving DecidableEq, Repr

def finish {α : Type} (fmt : List UInt8) (state : Scan α) : Formatted α :=
  match state.quoteChar with
  | some _ =>
    let begins := state.quotePos - min state.quotePos 5
    .unmatchedQuote ((fmt.drop begins).take 11) state.quotePos
  | none => .command state.flushNonempty.components

def scanLoop {α : Type} (writer : Writer α) (fmt : List UInt8) :
    Nat → Scan α → List UInt8 → Formatted α
  | 0, state, _ => finish fmt state
  | _ + 1, state, [] => finish fmt state
  | rounds + 1, state, c :: rest =>
    match readToken c rest with
    | .invalidFormat => .invalidFormat
    | .overrun => .overrun
    | .token token after =>
      scanLoop writer fmt rounds (state.step writer (fmt.length - (rest.length + 1)) token) after

/-- The arguments of a call: the bytes of a string by the number of its conversion, and for a number
the bytes that are appended, as many as `vsnprintf` returns, of which those from the fortieth on are
behind the buffer `_printed`. -/
structure Arguments where
  bytes : Nat → List UInt8
  printed : List UInt8 → Nat → List UInt8

/-- The bytes that a conversion appends; `%s` takes a string up to its NUL. -/
def Arguments.text (arguments : Arguments) (index : Nat) : Token → List UInt8
  | .text => (arguments.bytes index).takeWhile (· != 0)
  | .binary => arguments.bytes index
  | .number spec => arguments.printed spec index
  | _ => []

/-- The program writes bytes. -/
def Arguments.writer (arguments : Arguments) : Writer UInt8 :=
  { byte := id, isBackslash := (· == 92), conversion := arguments.text }

def redisCommandFormatV (fmt : List UInt8) (arguments : Arguments) : Formatted UInt8 :=
  scanLoop arguments.writer fmt fmt.length {} fmt

/-- A round of the scanner: its variables and the format from the byte that it looks at. -/
structure Round where
  state : Scan UInt8
  c : UInt8
  rest : List UInt8

def roundsFrom (fmt : List UInt8) (arguments : Arguments) :
    Nat → Scan UInt8 → List UInt8 → List Round
  | rounds + 1, state, c :: rest =>
    ⟨state, c, rest⟩ ::
      match readToken c rest with
      | .token token after =>
        roundsFrom fmt arguments rounds
          (state.step arguments.writer (fmt.length - (rest.length + 1)) token) after
      | _ => []
  | _, _, _ => []

def allRounds (fmt : List UInt8) (arguments : Arguments) : List Round :=
  roundsFrom fmt arguments fmt.length {} fmt

namespace Round

/-- What `vsnprintf` returns for the number of the round. -/
def plen (arguments : Arguments) (round : Round) : Option Nat :=
  match readToken round.c round.rest with
  | .token (.number spec) _ => some (arguments.printed spec round.state.nargs).length
  | _ => none

/-- The bytes of `_printed` that `vsnprintf` wrote, the NUL among them. -/
def written (plen : Nat) : Nat := min plen 39 + 1

/-- The format ends behind the flags, the width or the precision of a conversion that fits
`_format`. -/
def CutShort (round : Round) : Prop :=
  round.c = 37 ∧ round.rest ≠ [] ∧ numberEnd round.rest = .unfinished ∧ round.rest.length < 20

end Round

theorem readToken_eq_overrun_iff (round : Round) :
    readToken round.c round.rest = .overrun ↔ round.CutShort := by
  obtain ⟨state, c, rest⟩ := round
  cases rest with
  | nil => simp [readToken, Round.CutShort]
  | cons d after =>
    have begins (special : d = 115 ∨ d = 98 ∨ d = 37) : numberEnd (d :: after) = .invalid := by
      rcases special with rfl | rfl | rfl <;> rfl
    simp only [readToken, Round.CutShort]
    cases ends : numberEnd (d :: after) with
    | unfinished =>
      rw [ends] at begins
      have ordinary : ¬(d = 115 ∨ d = 98 ∨ d = 37) := fun special => nomatch begins special
      simp only [not_or] at ordinary
      split_ifs <;> simp_all
      omega
    | invalid => split_ifs <;> simp
    | valid last =>
      dsimp only
      split_ifs <;> simp

theorem scanLoop_eq_overrun_iff (fmt : List UInt8) (args : Arguments) (rounds : Nat)
    (state : Scan UInt8) (rest : List UInt8) :
    scanLoop args.writer fmt rounds state rest = .overrun ↔
      ∃ round ∈ roundsFrom fmt args rounds state rest, round.CutShort := by
  have finished (state : Scan UInt8) : finish fmt state ≠ .overrun := by
    unfold finish
    split <;> simp
  induction rounds generalizing state rest with
  | zero => simpa [scanLoop, roundsFrom] using finished state
  | succ rounds ih =>
    cases rest with
    | nil => simpa [scanLoop, roundsFrom] using finished state
    | cons c rest =>
      have here := readToken_eq_overrun_iff ⟨state, c, rest⟩
      simp only [scanLoop, roundsFrom, mem_cons, exists_eq_or_imp, ← here]
      cases readToken c rest with
      | token token after => simpa using ih _ after
      | _ => simp

/-- The scanner stays in the format and in what it printed exactly when no conversion is cut short
by the end of the format and none prints more than 40 bytes. -/
theorem reads_inside_iff (fmt : List UInt8) (args : Arguments) :
    (redisCommandFormatV fmt args ≠ .overrun ∧
      ∀ round ∈ allRounds fmt args, ∀ plen ∈ round.plen args,
        plen ≤ Round.written plen) ↔
      ∀ round ∈ allRounds fmt args, ¬round.CutShort ∧
        ∀ plen ∈ round.plen args, plen ≤ 40 := by
  have fits (plen : Nat) : plen ≤ Round.written plen ↔ plen ≤ 40 := by
    unfold Round.written
    omega
  simp only [redisCommandFormatV, ne_eq, scanLoop_eq_overrun_iff, fits, not_exists, not_and,
    ← forall_and, allRounds]

/-- `"%5"`, and `"%d"` printed with 41 bytes. -/
theorem not_reads_inside : ∃ first second args, redisCommandFormatV first args = .overrun ∧
        ∃ round ∈ allRounds second args, ∃ plen ∈ round.plen args,
          Round.written plen < plen :=
  ⟨[37, 53], [37, 52, 49, 100], ⟨fun _ => [], fun _ _ => List.replicate 41 32⟩, rfl,
    ⟨{}, 37, [52, 49, 100]⟩, by simp [allRounds, roundsFrom], 41, rfl, by decide⟩

/-- A place in the layout: a byte of the format or a conversion. -/
inductive Slot where
  | byte (c : UInt8)
  | conversion (index : Nat) (token : Token)
deriving DecidableEq, Repr

/-- The layout keeps conversions as they are. -/
def slots : Writer Slot :=
  { byte := .byte
    isBackslash := (· == .byte 92)
    conversion := fun index token => [.conversion index token] }

/-- The components the format alone prescribes. -/
def layout (fmt : List UInt8) : Formatted Slot := scanLoop slots fmt fmt.length {} fmt

def fill (arguments : Arguments) (component : List Slot) : List UInt8 :=
  component.flatMap fun
    | .byte c => [c]
    | .conversion index token => arguments.text index token

def Formatted.map {α β : Type} (f : List α → List β) : Formatted α → Formatted β
  | .command components => .command (components.map f)
  | .unmatchedQuote context offset => .unmatchedQuote context offset
  | .invalidFormat => .invalidFormat
  | .overrun => .overrun

end Redis
end McBrpc
