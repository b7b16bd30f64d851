import McBrpc.Brpc.RedisCommandFormat
import Mathlib.Data.List.Infix

/-!
# Arguments that keep the layout of a command

`neutral` follows the scanner over the layout and checks its two tests.  Where the first fails, a
component is lost (`Lost`); where the second fails, the backslash of an argument gives way to a
quote (`Diverged`).
-/

namespace McBrpc

open List
namespace Redis

section Fill

variable (arguments : Arguments)

@[simp]
theorem fill_nil : fill arguments [] = [] := rfl

@[simp]
theorem fill_append (first second : List Slot) :
    fill arguments (first ++ second) = fill arguments first ++ fill arguments second :=
  flatMap_append

@[simp]
theorem fill_byte (c : UInt8) : fill arguments [.byte c] = [c] := rfl

@[simp]
theorem fill_conversion (index : Nat) (token : Token) :
    fill arguments [.conversion index token] = arguments.text index token := by
  simp [fill]

end Fill

variable (arguments : Arguments)

/-- A component that has slots has bytes. -/
def keepsNonempty (component : List Slot) : Bool :=
  component == [] || fill arguments component != []

/-- A component that ends with a backslash has it from the format. -/
def keepsBackslash (component : List Slot) : Bool :=
  (fill arguments component).getLast? != some 92 || component.getLast? == some (.byte 92)

/-- The tests a round makes do not depend on the arguments. -/
def neutralAt (state : Scan Slot) : Token → Bool
  | .plain c =>
    if c = 32 then state.quoteChar.isSome || keepsNonempty arguments state.compbuf
    else if c = 34 ∨ c = 39 then
      match state.quoteChar with
      | none => keepsNonempty arguments state.compbuf
      | some quote => quote != c || keepsBackslash arguments state.compbuf
    else true
  | _ => true

/-- The same for the test at the end of the call. -/
def neutralEnd (state : Scan Slot) : Bool :=
  state.quoteChar.isSome || keepsNonempty arguments state.compbuf

/-- The same for all the tests of the loop. -/
def neutralLoop (arguments : Arguments) (fmt : List UInt8) : Nat → Scan Slot → List UInt8 → Bool
  | 0, state, _ => neutralEnd arguments state
  | _ + 1, state, [] => neutralEnd arguments state
  | rounds + 1, state, c :: rest =>
    match readToken c rest with
    | .token token after =>
      neutralAt arguments state token &&
        neutralLoop arguments fmt rounds
          (state.step slots (fmt.length - (rest.length + 1)) token) after
    | _ => true

/-- No argument misleads the scanner. -/
def neutral (fmt : List UInt8) (arguments : Arguments) : Bool :=
  neutralLoop arguments fmt fmt.length {} fmt

def Scan.fill (state : Scan Slot) : Scan UInt8 :=
  { components := state.components.map (Redis.fill arguments)
    compbuf := Redis.fill arguments state.compbuf
    quoteChar := state.quoteChar
    quotePos := state.quotePos
    nargs := state.nargs }

section Rounds

variable {arguments : Arguments} {state : Scan Slot}

theorem fill_push (c : UInt8) :
    (state.fill arguments).push c = (state.push (.byte c)).fill arguments := by
  simp [Scan.push, Scan.fill]

theorem fill_flush : (state.fill arguments).flush = state.flush.fill arguments := by
  simp [Scan.flush, Scan.fill]

theorem fill_flushNonempty (keeps : keepsNonempty arguments state.compbuf) :
    (state.fill arguments).flushNonempty = state.flushNonempty.fill arguments := by
  cases slotList : state.compbuf with
  | nil => simp [Scan.flushNonempty, Scan.fill, slotList]
  | cons slot rest =>
    have some : fill arguments (slot :: rest) ≠ [] := by
      simpa [keepsNonempty, slotList] using keeps
    obtain ⟨c, bytes, filled⟩ := exists_cons_of_ne_nil some
    have flushed : (state.fill arguments).flushNonempty = (state.fill arguments).flush := by
      simp [Scan.flushNonempty, Scan.fill, slotList, filled]
    rw [flushed, fill_flush]
    simp [Scan.flushNonempty, slotList]

theorem any_isBackslash_slots {component : List Slot} :
    component.getLast?.any slots.isBackslash = true ↔
      ∃ start, component = start ++ [.byte 92] := by
  rw [← getLast?_eq_some_iff]
  cases component.getLast? <;> simp [slots]

theorem any_isBackslash_bytes (arguments : Arguments) {bytes : List UInt8} :
    bytes.getLast?.any arguments.writer.isBackslash = true ↔ bytes.getLast? = some 92 := by
  cases bytes.getLast? <;> simp [Arguments.writer]

theorem any_isBackslash_fill {component : List Slot} (keeps : keepsBackslash arguments component)
    (last : component.getLast?.any slots.isBackslash = false) :
    (fill arguments component).getLast?.any arguments.writer.isBackslash = false := by
  rw [Bool.eq_false_iff, ne_eq, any_isBackslash_bytes arguments]
  intro ends
  simp only [keepsBackslash, ends, bne_self_eq_false, Bool.false_or, beq_iff_eq] at keeps
  rw [getLast?_eq_some_iff, ← any_isBackslash_slots, last] at keeps
  exact absurd keeps (by decide)

theorem plain_fill (c : UInt8) (offset : Nat) (keeps : neutralAt arguments state (.plain c)) :
    Scan.plain arguments.writer (state.fill arguments) offset c =
      (Scan.plain slots state offset c).fill arguments := by
  have quote_same : (state.fill arguments).quoteChar = state.quoteChar := rfl
  by_cases space : c = 32
  · simp only [neutralAt, if_pos space] at keeps
    simp only [Scan.plain, if_pos space, quote_same]
    cases quoted : state.quoteChar with
    | some quote => exact fill_push c
    | none =>
      rw [quoted] at keeps
      exact fill_flushNonempty (by simpa using keeps)
  by_cases quotes : c = 34 ∨ c = 39
  · simp only [neutralAt, if_neg space, if_pos quotes] at keeps
    simp only [Scan.plain, if_neg space, if_pos quotes, quote_same]
    cases quoted : state.quoteChar with
    | none =>
      rw [quoted] at keeps
      rw [Scan.openQuote, fill_flushNonempty keeps]
      rfl
    | some quote =>
      rw [quoted] at keeps
      by_cases closing : quote = c
      · simp only [if_pos closing, Scan.closeQuote]
        cases last : state.compbuf.getLast?.any slots.isBackslash with
        | true =>
          obtain ⟨start, ends⟩ := any_isBackslash_slots.mp last
          simp [Scan.fill, ends, slots, Arguments.writer]
        | false =>
          have held : keepsBackslash arguments state.compbuf := by simpa [closing] using keeps
          have bytes : (state.fill arguments).compbuf.getLast?.any
              arguments.writer.isBackslash = false := any_isBackslash_fill held last
          rw [bytes, fill_flush]
          rfl
      · simp only [if_neg closing]
        exact fill_push c
  · simp only [Scan.plain, if_neg space, if_neg quotes]
    exact fill_push c

theorem step_fill (token : Token) (offset : Nat) (keeps : neutralAt arguments state token) :
    (state.fill arguments).step arguments.writer offset token =
      (state.step slots offset token).fill arguments := by
  cases token with
  | plain c => exact plain_fill c offset keeps
  | percent => exact fill_push 37
  | skipped => rfl
  | text | binary | number => simp [Scan.step.eq_def, Scan.fill, slots, Arguments.writer]

theorem finish_fill (fmt : List UInt8) (keeps : neutralEnd arguments state) :
    finish fmt (state.fill arguments) = (finish fmt state).map (fill arguments) := by
  cases quoted : state.quoteChar with
  | some quote => simp [finish, Scan.fill, quoted, Formatted.map]
  | none =>
    have held : keepsNonempty arguments state.compbuf := by
      simpa [neutralEnd, quoted] using keeps
    have flushed := congrArg Scan.components (fill_flushNonempty held)
    have open_none : (state.fill arguments).quoteChar = none := quoted
    simp only [finish, open_none, quoted, Formatted.map, flushed]
    rfl

theorem scanLoop_fill {fmt : List UInt8} {rounds : Nat} {rest : List UInt8}
    (keeps : neutralLoop arguments fmt rounds state rest) :
    scanLoop arguments.writer fmt rounds (state.fill arguments) rest =
      (scanLoop slots fmt rounds state rest).map (fill arguments) := by
  induction rounds generalizing state rest with
  | zero => exact finish_fill fmt keeps
  | succ rounds ih =>
    cases rest with
    | nil => exact finish_fill fmt keeps
    | cons c rest =>
      simp only [scanLoop, neutralLoop] at keeps ⊢
      cases read : readToken c rest with
      | invalidFormat => rfl
      | overrun => rfl
      | token token after =>
        simp only [read, Bool.and_eq_true] at keeps
        simp only
        rw [step_fill token _ keeps.1]
        exact ih keeps.2

end Rounds

section Misled

variable {arguments : Arguments} {state : Scan Slot} {actual : Scan UInt8} {lost : Nat}

/-- The program has written the same bytes, but so many components are missing. -/
structure Lost (arguments : Arguments) (lost : Nat) (state : Scan Slot) (actual : Scan UInt8) :
    Prop where
  quoteChar : actual.quoteChar = state.quoteChar
  nargs : actual.nargs = state.nargs
  compbuf : actual.compbuf = fill arguments state.compbuf
  flatten : actual.components.flatten = (state.components.map (fill arguments)).flatten
  length : actual.components.length + lost = state.components.length

/-- The program has written another byte where the layout has a backslash. -/
def Diverged (arguments : Arguments) (state : Scan Slot) (actual : Scan UInt8) : Prop :=
  ∃ bytes c, c ≠ 92 ∧ bytes ++ [c] <+: actual.components.flatten ++ actual.compbuf ∧
    bytes ++ [92] <+: (state.components.map (fill arguments)).flatten

section

variable (same : Lost arguments lost state actual)
include same

theorem Lost.push (c : UInt8) : Lost arguments lost (state.push (.byte c)) (actual.push c) := by
  refine ⟨same.quoteChar, same.nargs, ?_, same.flatten, same.length⟩
  simp [Scan.push, same.compbuf]

theorem Lost.flush : Lost arguments lost state.flush actual.flush := by
  refine ⟨same.quoteChar, same.nargs, rfl, ?_, ?_⟩
  · simp [Scan.flush, same.compbuf, same.flatten]
  · have := same.length
    simp only [Scan.flush, length_append, length_singleton]
    omega

theorem Lost.flushNonempty :
    ∃ more, Lost arguments (lost + more) state.flushNonempty actual.flushNonempty ∧
      (keepsNonempty arguments state.compbuf = false → 0 < more) := by
  have bytes := same.compbuf
  cases slotList : state.compbuf with
  | nil =>
    refine ⟨0, ?_, by simp [keepsNonempty]⟩
    simpa [Scan.flushNonempty, slotList, bytes] using same
  | cons slot rest =>
    rw [slotList] at bytes
    have flushed : state.flushNonempty = state.flush := by simp [Scan.flushNonempty, slotList]
    cases filled : fill arguments (slot :: rest) with
    | nil =>
      have stays : actual.flushNonempty = actual := by
        simp [Scan.flushNonempty, bytes, filled]
      refine ⟨1, ?_, fun _ => Nat.one_pos⟩
      rw [flushed, stays]
      refine ⟨same.quoteChar, same.nargs, ?_, ?_, ?_⟩
      · simp [Scan.flush, bytes, filled]
      · simp [Scan.flush, slotList, filled, same.flatten]
      · have := same.length
        simp only [Scan.flush, length_append, length_singleton]
        omega
    | cons c more =>
      have flushes : actual.flushNonempty = actual.flush := by
        simp [Scan.flushNonempty, bytes, filled]
      refine ⟨0, ?_, by simp [keepsNonempty, filled]⟩
      rw [flushed, flushes]
      exact same.flush

/-- The byte that closes a quote, unless the component ends with a backslash. -/
theorem Lost.closeQuote {c : UInt8} (quotes : c = 34 ∨ c = 39) :
    (∃ more, Lost arguments (lost + more) (state.closeQuote slots c)
        (actual.closeQuote arguments.writer c) ∧
      (keepsBackslash arguments state.compbuf = false → 0 < more)) ∨
      Diverged arguments (state.closeQuote slots c) (actual.closeQuote arguments.writer c) := by
  unfold Scan.closeQuote
  cases last : state.compbuf.getLast?.any slots.isBackslash with
  | true =>
    left
    obtain ⟨start, ends⟩ := any_isBackslash_slots.mp last
    have bytes : actual.compbuf = fill arguments start ++ [92] := by simp [same.compbuf, ends]
    have escaped : actual.compbuf.getLast?.any arguments.writer.isBackslash = true := by
      rw [any_isBackslash_bytes arguments, bytes]
      simp
    refine ⟨0, ?_, by simp [keepsBackslash, ends]⟩
    rw [if_pos rfl, if_pos escaped]
    refine ⟨same.quoteChar, same.nargs, ?_, same.flatten, same.length⟩
    simp [bytes, ends, slots, Arguments.writer]
  | false =>
    cases misled : actual.compbuf.getLast?.any arguments.writer.isBackslash with
    | false =>
      left
      refine ⟨0, ?_, ?_⟩
      · have flushed := same.flush
        exact ⟨rfl, flushed.nargs, flushed.compbuf, flushed.flatten, flushed.length⟩
      · intro bad
        rw [same.compbuf] at misled
        have ends : (fill arguments state.compbuf).getLast? = some 92 := by
          simpa [keepsBackslash] using (Bool.or_eq_false_iff.mp bad).1
        rw [← any_isBackslash_bytes arguments, misled] at ends
        exact absurd ends (by decide)
    | true =>
      right
      obtain ⟨start, ends⟩ :=
        getLast?_eq_some_iff.mp ((any_isBackslash_bytes arguments).mp misled)
      refine ⟨actual.components.flatten ++ start, c, ?_, ?_, ?_⟩
      · rintro rfl
        simp at quotes
      · simp [ends, Arguments.writer]
      · simp [Scan.flush, ← same.compbuf, ends, same.flatten]

/-- A round loses components or makes the bytes different when a test goes wrong, and never finds
them again. -/
theorem Lost.plain (c : UInt8) (offset : Nat) :
    (∃ more, Lost arguments (lost + more) (Scan.plain slots state offset c)
        (Scan.plain arguments.writer actual offset c) ∧
      (neutralAt arguments state (.plain c) = false → 0 < more)) ∨
      Diverged arguments (Scan.plain slots state offset c)
        (Scan.plain arguments.writer actual offset c) := by
  by_cases space : c = 32
  · simp only [Scan.plain, if_pos space, same.quoteChar, neutralAt]
    left
    cases quoted : state.quoteChar with
    | some quote => exact ⟨0, same.push c, by simp⟩
    | none =>
      obtain ⟨more, later, loses⟩ := same.flushNonempty
      exact ⟨more, later, by simpa using loses⟩
  by_cases quotes : c = 34 ∨ c = 39
  · simp only [Scan.plain, if_neg space, if_pos quotes, same.quoteChar, neutralAt]
    cases quoted : state.quoteChar with
    | none =>
      left
      obtain ⟨more, later, loses⟩ := same.flushNonempty
      exact ⟨more, ⟨rfl, later.nargs, later.compbuf, later.flatten, later.length⟩, loses⟩
    | some quote =>
      by_cases closing : quote = c
      · subst closing
        simp only [if_true, bne_self_eq_false, Bool.false_or]
        exact same.closeQuote quotes
      · left
        simp only [if_neg closing]
        exact ⟨0, same.push c, by simp [closing]⟩
  · left
    simp only [Scan.plain, if_neg space, if_neg quotes, neutralAt]
    exact ⟨0, same.push c, by simp⟩

theorem Lost.step (token : Token) (offset : Nat) :
    (∃ more, Lost arguments (lost + more) (state.step slots offset token)
        (actual.step arguments.writer offset token) ∧
      (neutralAt arguments state token = false → 0 < more)) ∨
      Diverged arguments (state.step slots offset token)
        (actual.step arguments.writer offset token) := by
  have nargs := same.nargs
  cases token with
  | plain c => exact same.plain c offset
  | percent => exact .inl ⟨0, same.push 37, by simp [neutralAt]⟩
  | skipped =>
    refine .inl ⟨0, ⟨same.quoteChar, ?_, same.compbuf, same.flatten, same.length⟩, by
      simp [neutralAt]⟩
    simp [Scan.step.eq_def, nargs]
  | text | binary | number spec =>
    refine .inl ⟨0, ⟨same.quoteChar, ?_, ?_, same.flatten, same.length⟩, by simp [neutralAt]⟩
    · simp [Scan.step.eq_def, nargs]
    · simp [Scan.step.eq_def, nargs, same.compbuf, slots, Arguments.writer]

end

theorem written_step {bytes : List UInt8} {c : UInt8} (other : c ≠ 92) (token : Token)
    (offset : Nat) (wrote : bytes ++ [c] <+: actual.components.flatten ++ actual.compbuf) :
    bytes ++ [c] <+: (actual.step arguments.writer offset token).components.flatten ++
      (actual.step arguments.writer offset token).compbuf := by
  have push : ∀ more, bytes ++ [c] <+:
      actual.components.flatten ++ (actual.compbuf ++ more) := by
    intro more
    rw [← append_assoc]
    exact wrote.trans (prefix_append _ _)
  have flush : bytes ++ [c] <+: actual.flush.components.flatten ++ actual.flush.compbuf := by
    simpa [Scan.flush] using wrote
  have flushNonempty : bytes ++ [c] <+:
      actual.flushNonempty.components.flatten ++ actual.flushNonempty.compbuf := by
    unfold Scan.flushNonempty
    split
    · exact wrote
    · exact flush
  have closeQuote : ∀ quote, bytes ++ [c] <+:
      (actual.closeQuote arguments.writer quote).components.flatten ++
        (actual.closeQuote arguments.writer quote).compbuf := by
    intro quote
    unfold Scan.closeQuote
    split
    · rename_i backslash
      obtain ⟨start, ends⟩ :=
        getLast?_eq_some_iff.mp ((any_isBackslash_bytes arguments).mp backslash)
      rw [ends, ← append_assoc, prefix_concat_iff] at wrote
      obtain whole | before := wrote
      · exact absurd (by simpa using congrArg List.getLast? whole) other
      · refine before.trans ?_
        simp [ends]
    · exact flush
  cases token with
  | plain d =>
    simp only [Scan.step.eq_def, Scan.plain]
    split
    · split
      · exact push _
      · exact flushNonempty
    · split
      · split
        · exact flushNonempty
        · split
          · exact closeQuote d
          · exact push _
      · exact push _
  | percent => exact push _
  | skipped => exact wrote
  | text | binary | number spec => exact push _

theorem components_step (state : Scan Slot) (token : Token) (offset : Nat) :
    state.components <+: (state.step slots offset token).components := by
  have flush : state.components <+: state.flush.components := prefix_append _ _
  have flushNonempty : state.components <+: state.flushNonempty.components := by
    unfold Scan.flushNonempty
    split
    · exact prefix_rfl
    · exact flush
  have closeQuote : ∀ quote, state.components <+: (state.closeQuote slots quote).components := by
    intro quote
    unfold Scan.closeQuote
    split
    · exact prefix_rfl
    · exact flush
  cases token with
  | plain d =>
    simp only [Scan.step.eq_def, Scan.plain]
    split
    · split
      · exact prefix_rfl
      · exact flushNonempty
    · split
      · split
        · exact flushNonempty
        · split
          · exact closeQuote d
          · exact prefix_rfl
      · exact prefix_rfl
  | _ => exact prefix_rfl

theorem Diverged.step (apart : Diverged arguments state actual) (token : Token) (offset : Nat) :
    Diverged arguments (state.step slots offset token)
      (actual.step arguments.writer offset token) := by
  obtain ⟨bytes, c, other, wrote, laid⟩ := apart
  refine ⟨bytes, c, other, written_step other token offset wrote, laid.trans ?_⟩
  obtain ⟨more, longer⟩ := components_step state token offset
  rw [← longer]
  simp

variable {fmt : List UInt8}

theorem finish_eq_command {α : Type} {state : Scan α} {components : List (List α)} :
    finish fmt state = .command components ↔
      state.quoteChar = none ∧ state.flushNonempty.components = components := by
  cases quoted : state.quoteChar <;> simp [finish, quoted]

theorem flatten_flushNonempty (state : Scan UInt8) :
    state.flushNonempty.components.flatten = state.components.flatten ++ state.compbuf := by
  unfold Scan.flushNonempty
  split
  · rename_i empty
    simp [empty]
  · simp [Scan.flush]

theorem Diverged.components_ne (apart : Diverged arguments state actual) :
    actual.flushNonempty.components ≠ state.flushNonempty.components.map (fill arguments) := by
  obtain ⟨bytes, c, other, here, there⟩ := apart
  intro same
  rw [← flatten_flushNonempty, same] at here
  have begins : state.components <+: state.flushNonempty.components := by
    unfold Scan.flushNonempty
    split
    · exact prefix_rfl
    · exact prefix_append _ _
  have laid : bytes ++ [92] <+: (state.flushNonempty.components.map (fill arguments)).flatten := by
    refine there.trans ?_
    obtain ⟨more, longer⟩ := begins
    rw [← longer]
    simp
  have equal : bytes ++ [c] = bytes ++ [92] :=
    (prefix_of_prefix_length_le here laid (by simp)).eq_of_length (by simp)
  exact other (by simpa using equal)

theorem finish_ne {parts : List (List Slot)}
    (misled : (Lost arguments lost state actual ∧ (neutralEnd arguments state → 0 < lost)) ∨
      Diverged arguments state actual) (laid : finish fmt state = .command parts) :
    finish fmt actual ≠ .command (parts.map (fill arguments)) := by
  intro wrote
  obtain ⟨-, rfl⟩ := finish_eq_command.mp laid
  have same := (finish_eq_command.mp wrote).2
  obtain ⟨lossy, loses⟩ | apart := misled
  · obtain ⟨more, later, found⟩ := lossy.flushNonempty
    have count := later.length
    rw [same, length_map] at count
    cases held : keepsNonempty arguments state.compbuf with
    | true =>
      have := loses (by simp [neutralEnd, held])
      omega
    | false =>
      have := found held
      omega
  · exact apart.components_ne same

/-- A scan that is misled does not end with the command of the layout. -/
theorem scanLoop_ne {rounds : Nat} {rest : List UInt8} {parts : List (List Slot)}
    (misled : (Lost arguments lost state actual ∧
      (neutralLoop arguments fmt rounds state rest → 0 < lost)) ∨ Diverged arguments state actual)
    (laid : scanLoop slots fmt rounds state rest = .command parts) :
    scanLoop arguments.writer fmt rounds actual rest ≠
      .command (parts.map (fill arguments)) := by
  induction rounds generalizing lost state actual rest with
  | zero => exact finish_ne misled laid
  | succ rounds ih =>
    cases rest with
    | nil => exact finish_ne misled laid
    | cons c rest =>
      simp only [scanLoop, neutralLoop] at misled laid ⊢
      cases read : readToken c rest with
      | invalidFormat => simp [read] at laid
      | overrun => simp [read] at laid
      | token token after =>
        simp only [read] at misled laid
        obtain ⟨same, loses⟩ | apart := misled
        · obtain ⟨more, later, found⟩ | apart :=
            same.step token (fmt.length - (rest.length + 1))
          · refine ih (.inl ⟨later, fun keeps => ?_⟩) laid
            cases here : neutralAt arguments state token with
            | true =>
              have := loses (by simp [here, keeps])
              omega
            | false =>
              have := found here
              omega
          · exact @ih _ _ 0 _ (.inr apart) laid
        · exact @ih _ _ 0 _ (.inr (apart.step token _)) laid

end Misled

/-- The command of a format is the layout of the format with the arguments filled in, the same
number of components with the conversions at the same places and each argument verbatim, exactly
when no argument misleads the scanner.  An error is an error of the format. -/
theorem redisCommandFormatV_spec (fmt : List UInt8) (arguments : Arguments) :
    (∀ components, layout fmt = .command components →
      (redisCommandFormatV fmt arguments = .command (components.map (fill arguments)) ↔
        neutral fmt arguments)) ∧
    (neutral fmt arguments →
      redisCommandFormatV fmt arguments = (layout fmt).map (fill arguments)) := by
  have follows : neutral fmt arguments →
      redisCommandFormatV fmt arguments = (layout fmt).map (fill arguments) :=
    fun keeps => scanLoop_fill keeps
  refine ⟨fun components laid => ⟨fun written => ?_, fun keeps => ?_⟩, follows⟩
  · by_contra misleading
    have start : Lost arguments 0 {} {} := ⟨rfl, rfl, rfl, rfl, rfl⟩
    exact scanLoop_ne (.inl ⟨start, fun keeps => absurd keeps misleading⟩) laid written
  · rw [follows keeps, laid]
    rfl

/-- `SET %s "%b"` with a key and a value that has a quote in it. -/
theorem redisCommandFormatV_spec_set :
    redisCommandFormatV [83, 69, 84, 32, 37, 115, 32, 34, 37, 98, 34]
        ⟨fun index => if index = 0 then [107, 49] else [97, 34, 32, 98], fun _ _ => []⟩ =
      .command [[83, 69, 84], [107, 49], [97, 34, 32, 98]] :=
  ((redisCommandFormatV_spec _ _).1 [[.byte 83, .byte 69, .byte 84], [.conversion 0 .text],
    [.conversion 1 .binary]] (by decide)).mpr (by decide)

/-- `SET %s %s` with an empty value: the third component is lost. -/
theorem redisCommandFormatV_empty : layout [83, 69, 84, 32, 37, 115, 32, 37, 115] =
        .command [[.byte 83, .byte 69, .byte 84], [.conversion 0 .text], [.conversion 1 .text]] ∧
      redisCommandFormatV [83, 69, 84, 32, 37, 115, 32, 37, 115]
          ⟨fun index => if index = 0 then [107] else [], fun _ _ => []⟩ =
        .command [[83, 69, 84], [107]] := by
  decide


end Redis
end McBrpc
