import Mathlib.Algebra.BigOperators.Group.List.Basic
import Mathlib.Algebra.GroupWithZero.Nat
import McBrpc.Library.Execution

/-!
# The window of a stream

A stream counts the bytes it produced and those the remote side has consumed; it is full when they
differ by its buffer size.  Feedback of the remote side advances the second count, may change the
size and wakes the waiting writers.  Every locked section of a thread is one action.
-/

namespace McBrpc

open List Execution

structure StreamOptions where
  minBufSize : Int32
  maxBufSize : Int32

/-- A stream, with the lengths of the accepted messages whose `Write` has not returned, the length
of the message accepted last, and whether the `CHECK` of `SetRemoteConsumed` failed. -/
structure Stream where
  options : StreamOptions
  curBufSize : Nat
  produced : Nat := 0
  remoteConsumed : Nat := 0
  writableWaitList : List Nat := []
  writing : List Nat := []
  lastLength : Nat := 0
  checkFailed : Bool := false

/-- The locked sections; `setRemoteConsumed` reads the unconsumed size of all streams of the
socket. -/
inductive StreamAction where
  | appendIfNotFull (length : Nat)
  | writeReturned (index : Nat) (failed : Bool)
  | wait (waitId : Nat)
  | setRemoteConsumed (newRemoteConsumed : Nat) (unconsumedSize : Int)

namespace Stream

/-- The conversion of an `int` to `size_t`. -/
def toSize (value : Int32) : Nat := (value.toInt % 2 ^ 64).toNat

/-- `Create`; `flag` is `socket_max_streams_unconsumed_bytes`. -/
def create (flag : Int) (options : StreamOptions) : Stream :=
  let options := if 0 < options.maxBufSize.toInt ∧
    options.maxBufSize.toInt < options.minBufSize.toInt then { options with minBufSize := 0 }
    else options
  { options
    curBufSize := toSize <|
      if 0 < flag ∧ 0 < options.minBufSize.toInt then options.minBufSize else options.maxBufSize }

/-- `_remote_consumed + _cur_buf_size` -/
def limit (s : Stream) : Nat := (s.remoteConsumed + s.curBufSize) % 2 ^ 64

/-- The next message is accepted, and `Wait` returns at once. -/
def Writable (s : Stream) : Prop := s.curBufSize = 0 ∨ s.produced < s.limit

instance (s : Stream) : Decidable s.Writable := inferInstanceAs (Decidable (_ ∨ _))

def appendIfNotFull (length : Nat) (s : Stream) : Stream :=
  if s.Writable then
    { s with
      produced := if s.curBufSize = 0 then s.produced else s.produced + length
      writing := s.writing ++ [length]
      lastLength := length }
  else s

/-- `_produced -= data_length` -/
def takenBack (length : Nat) (s : Stream) : Nat :=
  if length ≤ s.produced then s.produced - length else s.produced + 2 ^ 64 - length

/-- The end of `AppendIfNotFull`, which takes the bytes back when `Write` fails. -/
def writeReturned (index : Nat) (failed : Bool) (s : Stream) : Stream :=
  match s.writing[index]? with
  | none => s
  | some length =>
    { s with
      produced := if failed then s.takenBack length else s.produced
      writing := s.writing.eraseIdx index }

def wait (waitId : Nat) (s : Stream) : Stream :=
  if s.Writable then s else { s with writableWaitList := s.writableWaitList ++ [waitId] }

/-- The buffer size after feedback. -/
def resized (flag : Int) (newRemoteConsumed : Nat) (unconsumedSize : Int) (s : Stream) : Nat :=
  if flag ≤ 0 then s.curBufSize
  else if flag < unconsumedSize then
    if 0 < s.options.minBufSize.toInt then toSize s.options.minBufSize else s.curBufSize / 2
  else if (newRemoteConsumed + s.curBufSize) % 2 ^ 64 ≤ s.produced ∧
      (s.options.maxBufSize.toInt ≤ 0 ∨ s.curBufSize < toSize s.options.maxBufSize) then
    if 0 < s.options.maxBufSize.toInt ∧
        toSize s.options.maxBufSize < s.curBufSize * 2 % 2 ^ 64 then
      toSize s.options.maxBufSize
    else s.curBufSize * 2 % 2 ^ 64
  else s.curBufSize

/-- `SetRemoteConsumed`, which wakes the waiting writers when a full stream is full no longer. -/
def setRemoteConsumed (flag : Int) (newRemoteConsumed : Nat) (unconsumedSize : Int) (s : Stream) :
    Stream :=
  let checkFailed := s.checkFailed || s.curBufSize == 0
  if newRemoteConsumed ≤ s.remoteConsumed then { s with checkFailed }
  else
    let after := { s with
      checkFailed
      remoteConsumed := newRemoteConsumed
      curBufSize := s.resized flag newRemoteConsumed unconsumedSize }
    { after with
      writableWaitList :=
        if s.limit ≤ s.produced ∧ ¬after.limit ≤ s.produced then [] else s.writableWaitList }

def step (flag : Int) (s : Stream) : StreamAction → Stream
  | .appendIfNotFull length => s.appendIfNotFull length
  | .writeReturned index failed => s.writeReturned index failed
  | .wait waitId => s.wait waitId
  | .setRemoteConsumed newRemoteConsumed unconsumedSize =>
    s.setRemoteConsumed flag newRemoteConsumed unconsumedSize

/-- The buffer size is between 1 and `max_buf_size`, no `CHECK` failed, and less than
`max_buf_size` and the last message is unconsumed. -/
def Bounded (s : Stream) : Prop :=
  1 ≤ s.curBufSize ∧ (s.curBufSize : Int) ≤ s.options.maxBufSize.toInt ∧ s.checkFailed = false ∧
    (s.produced : Int) < s.remoteConsumed + s.options.maxBufSize.toInt + s.lastLength

/-- The action does not halve a buffer of one byte. -/
def KeepsByte (flag : Int) (s : Stream) : StreamAction → Prop
  | .setRemoteConsumed newRemoteConsumed unconsumedSize =>
    s.curBufSize = 1 → s.remoteConsumed < newRemoteConsumed → 0 < flag → flag < unconsumedSize →
      0 < s.options.minBufSize.toInt
  | _ => True

/-- What every action keeps; the bytes of the messages under way are counted. -/
structure Windowed (s : Stream) : Prop where
  bounded : s.Bounded
  min_le : s.options.minBufSize.toInt ≤ s.options.maxBufSize.toInt
  writing_le : s.writing.sum ≤ s.produced

theorem toSize_of_pos {value : Int32} (pos : 0 < value.toInt) :
    (toSize value : Int) = value.toInt ∧ toSize value < 2 ^ 31 := by
  have := value.toInt_lt
  unfold toSize
  omega

theorem limit_le (s : Stream) : s.limit ≤ s.remoteConsumed + s.curBufSize := Nat.mod_le _ _

variable {flag total : Int} {new : Nat} {s : Stream}

theorem windowed_create {options : StreamOptions} (positive : 0 < options.maxBufSize.toInt) :
    (create flag options).Windowed := by
  have most := toSize_of_pos positive
  have least (pos : 0 < options.minBufSize.toInt) := toSize_of_pos pos
  refine ⟨⟨?_, ?_, rfl, ?_⟩, ?_, le_refl 0⟩
  all_goals
    simp only [create]
    split_ifs <;> simp_all <;> omega

theorem resized_bounds (window : s.Windowed) (advances : s.remoteConsumed < new) :
    (s.resized flag new total : Int) ≤ s.options.maxBufSize.toInt ∧
      (1 ≤ s.resized flag new total ↔ s.KeepsByte flag (.setRemoteConsumed new total)) := by
  obtain ⟨⟨positive, small, -, -⟩, min_le, -⟩ := window
  have large : 0 < s.options.maxBufSize.toInt := by omega
  have most := toSize_of_pos large
  have least (pos : 0 < s.options.minBufSize.toInt) := toSize_of_pos pos
  simp only [resized, KeepsByte]
  split_ifs <;> simp_all <;> omega

theorem windowed_appendIfNotFull (window : s.Windowed) (length : Nat) :
    (s.appendIfNotFull length).Windowed := by
  obtain ⟨⟨pos, small, checked, unconsumed⟩, min_le, writing_le⟩ := window
  unfold appendIfNotFull
  split
  · next writable =>
    have nonzero : s.curBufSize ≠ 0 := by omega
    have room := (writable.resolve_left nonzero).trans_le s.limit_le
    rw [if_neg nonzero]
    refine ⟨⟨pos, small, checked, ?_⟩, min_le, ?_⟩
    · simp only
      omega
    · simp only [sum_append, sum_singleton]
      omega
  · exact ⟨⟨pos, small, checked, unconsumed⟩, min_le, writing_le⟩

theorem windowed_writeReturned (window : s.Windowed) (index : Nat) (failed : Bool) :
    (s.writeReturned index failed).Windowed := by
  unfold writeReturned
  cases found : s.writing[index]? with
  | none => exact window
  | some length =>
    obtain ⟨⟨pos, small, checked, unconsumed⟩, min_le, writing_le⟩ := window
    obtain ⟨inside, rfl⟩ := List.getElem?_eq_some_iff.mp found
    have := CommMonoid.add_sum_eraseIdx inside
    refine ⟨⟨pos, small, checked, ?_⟩, min_le, ?_⟩
    all_goals
      simp only [takenBack]
      split_ifs <;> omega

theorem windowed_setRemoteConsumed (window : s.Windowed)
    (keeps : s.KeepsByte flag (.setRemoteConsumed new total)) :
    (s.setRemoteConsumed flag new total).Windowed := by
  have whole := window
  obtain ⟨⟨pos, small, checked, unconsumed⟩, min_le, writing_le⟩ := window
  have same : (s.checkFailed || s.curBufSize == 0) = false := by
    simp only [checked, Bool.false_or, beq_eq_false_iff_ne]
    omega
  unfold setRemoteConsumed
  split
  · exact ⟨⟨pos, small, same, unconsumed⟩, min_le, writing_le⟩
  · next advances =>
    obtain ⟨below, above⟩ := resized_bounds whole (Nat.lt_of_not_le advances)
    refine ⟨⟨above.mpr keeps, below, same, ?_⟩, min_le, writing_le⟩
    simp only
    omega

theorem windowed_step (window : s.Windowed) (action : StreamAction)
    (keeps : s.KeepsByte flag action) : (s.step flag action).Windowed := by
  cases action with
  | appendIfNotFull length => exact windowed_appendIfNotFull window length
  | writeReturned index failed => exact windowed_writeReturned window index failed
  | wait waitId =>
    simp only [step, wait]
    split_ifs
    · exact window
    · exact ⟨window.bounded, window.min_le, window.writing_le⟩
  | setRemoteConsumed new total =>
    exact windowed_setRemoteConsumed window keeps

theorem keepsByte_of_bounded_step (window : s.Windowed) (action : StreamAction)
    (bounded : (s.step flag action).Bounded) : s.KeepsByte flag action := by
  cases action with
  | setRemoteConsumed new total =>
    by_cases advances : s.remoteConsumed < new
    · refine (resized_bounds window advances).2.mp ?_
      have positive := bounded.1
      rwa [step, setRemoteConsumed, if_neg (Nat.not_le.mpr advances)] at positive
    · exact fun _ later => absurd later advances
  | _ => trivial

/-- The buffer size, the `CHECK` and the bound on unconsumed bytes are kept as long as no crowded
connection halves a buffer of one byte. -/
theorem bounded_iff_keepsByte (flag : Int) (options : StreamOptions)
    (pos : 0 < options.maxBufSize.toInt) (actions : List StreamAction) :
    EveryState (step flag) Bounded (create flag options) actions ↔
      EveryStep (step flag) (KeepsByte flag) (create flag options) actions :=
  everyState_iff_everyStep Windowed (windowed_create pos) (fun _ windowed => windowed.bounded)
    (fun _ action windowed keeps => windowed_step windowed action keeps)
    fun _ action _ windowed bounded => keepsByte_of_bounded_step windowed action bounded

/-- A buffer of four bytes, which a crowded connection halves. -/
theorem bounded_oneMessage :
    EveryState (step 1) Bounded (create 1 ⟨0, 4⟩) [.appendIfNotFull 5, .setRemoteConsumed 5 2] := by
  refine (bounded_iff_keepsByte 1 ⟨0, 4⟩ (by decide) _).mpr ((everyStep_cons ..).mpr ⟨trivial, ?_⟩)
  exact (everyStep_cons ..).mpr ⟨fun one => absurd one (by decide), everyStep_nil _ _ _⟩

/-- A stream of one byte on a crowded connection: the next feedback fails the `CHECK`. -/
theorem not_bounded_crowded :
    ∃ (flag : Int) (options : StreamOptions) (actions : List StreamAction),
      0 < options.maxBufSize.toInt ∧
        ((actions.foldl (step flag) (create flag options)).curBufSize = 0 ∧
          (actions.foldl (step flag) (create flag options)).checkFailed = true) ∧
        ¬EveryState (step flag) Bounded (create flag options) actions := by
  refine ⟨1, ⟨0, 1⟩, [.appendIfNotFull 2, .setRemoteConsumed 1 2, .setRemoteConsumed 2 2],
    by decide, by decide, fun every => ?_⟩
  have zero := every.final.1
  revert zero
  decide

/-- Writers wait only for a stream that is full. -/
def WaitsFull (s : Stream) : Prop := s.writableWaitList ≠ [] → ¬s.Writable

/-- The feedback halves a buffer of one byte, or doubles one of `2 ^ 63` without a maximum. -/
def TakesAll (flag : Int) (newRemoteConsumed : Nat) (unconsumedSize : Int) (s : Stream) : Prop :=
  0 < flag ∧
    if flag < unconsumedSize then s.curBufSize = 1 ∧ s.options.minBufSize.toInt ≤ 0
    else s.curBufSize % 2 ^ 63 = 0 ∧ (newRemoteConsumed + s.curBufSize) % 2 ^ 64 ≤ s.produced ∧
      s.options.maxBufSize.toInt ≤ 0

/-- With writers waiting, a failing `Write` leaves the stream full, and feedback that does not wake
them does not take all the buffer. -/
def KeepsFull (flag : Int) (s : Stream) : StreamAction → Prop
  | .writeReturned index true =>
    s.writableWaitList ≠ [] → ∀ length ∈ s.writing[index]?, s.limit ≤ s.takenBack length
  | .setRemoteConsumed newRemoteConsumed unconsumedSize =>
    s.writableWaitList ≠ [] → s.remoteConsumed < newRemoteConsumed →
      newRemoteConsumed % 2 ^ 64 ≤ s.produced → ¬s.TakesAll flag newRemoteConsumed unconsumedSize
  | _ => True

theorem resized_eq_zero_iff (some : s.curBufSize ≠ 0) :
    s.resized flag new total = 0 ↔ s.TakesAll flag new total := by
  have least := @toSize_of_pos s.options.minBufSize
  have most := @toSize_of_pos s.options.maxBufSize
  unfold resized TakesAll
  split_ifs <;> omega

theorem waitsFull_step_iff (waits : s.WaitsFull) (action : StreamAction) :
    (s.step flag action).WaitsFull ↔ s.KeepsFull flag action := by
  cases action with
  | appendIfNotFull length =>
    simp only [step, appendIfNotFull, KeepsFull, iff_true]
    split
    · next writable => exact fun ne => absurd writable (waits ne)
    · exact waits
  | writeReturned index failed =>
    simp only [step, writeReturned]
    cases found : s.writing[index]? with
    | none => cases failed <;> simp [KeepsFull, found, waits]
    | some length =>
      cases failed with
      | false => simpa [KeepsFull, WaitsFull, Writable, limit] using waits
      | true =>
        simp only [KeepsFull, found]
        constructor
        · rintro after ne _ ⟨⟩
          exact Nat.le_of_not_lt fun below => after ne (.inr below)
        · rintro keeps ne (zero | below)
          · exact waits ne (.inl zero)
          · exact absurd (keeps ne length rfl) (Nat.not_le.mpr below)
  | wait waitId =>
    simp only [step, wait, KeepsFull, iff_true]
    split
    · exact waits
    · next full => exact fun _ => full
  | setRemoteConsumed new total =>
    simp only [step, setRemoteConsumed, KeepsFull]
    split
    · next old => exact iff_of_true waits fun _ later => absurd old (Nat.not_le.mpr later)
    · next advances =>
      have full (ne : s.writableWaitList ≠ []) : s.limit ≤ s.produced :=
        Nat.le_of_not_lt fun below => waits ne (.inr below)
      have zero_iff (ne : s.writableWaitList ≠ []) :=
        @resized_eq_zero_iff flag total new s fun zero => waits ne (.inl zero)
      simp only [WaitsFull, Writable]
      split
      · next woken =>
        refine iff_of_true (fun ne => absurd rfl ne) fun ne _ reached takes => woken.2 ?_
        rwa [limit, (zero_iff ne).mpr takes]
      · next asleep =>
        constructor
        · exact fun after ne _ _ takes => after ne (.inl ((zero_iff ne).mpr takes))
        · rintro keeps ne (zero | below)
          · have reached := not_not.mp fun above => asleep ⟨full ne, above⟩
            rw [limit, zero] at reached
            exact keeps ne (Nat.lt_of_not_le advances) reached ((zero_iff ne).mp zero)
          · exact asleep ⟨full ne, Nat.not_le.mpr below⟩

/-- Writers wait only for a full stream as long as no `Write` fails that would let them go on, and
no feedback takes all the buffer. -/
theorem waitsFull_iff_keepsFull (flag : Int) (options : StreamOptions)
    (actions : List StreamAction) :
    EveryState (step flag) WaitsFull (create flag options) actions ↔
      EveryStep (step flag) (KeepsFull flag) (create flag options) actions :=
  everyState_iff_everyStep WaitsFull (fun ne => absurd rfl ne) (fun _ waits => waits)
    (fun _ action waits => (waitsFull_step_iff waits action).mpr)
    fun _ action _ waits => (waitsFull_step_iff waits action).mp

/-- The failed `Write` of the message that filled the stream leaves the waiting writer asleep. -/
theorem not_waitsFull_failedWrite : ¬EveryState (step 0) WaitsFull (create 0 ⟨0, 1⟩)
      [.appendIfNotFull 1, .wait 0, .writeReturned 0 true] :=
  fun every => every.final (by decide) (by decide)

end Stream
end McBrpc
