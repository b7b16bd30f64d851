import McBrpc.Library.Execution
import McBrpc.Log.LogSink

/-!
# The buffering log sink

`AsyncLogSink` collects messages in a stream, and its flush thread moves the stream to the log file
once a second.  The thread takes the stream under the logging lock, but looks at the descriptor and
writes after it has released the lock, so other threads run in between.
-/

namespace McBrpc

/-- The flush thread: asleep, past the locked block with the text it took, or past the test of the
descriptor. -/
inductive FlushThread where
  | asleep
  | took (text : List UInt8)
  | writing (text : List UInt8)

/-- An `AsyncLogSink` with the bytes passed to `write` and to `stderr` and the messages logged so
far. -/
structure AsyncLogSink where
  logFd : Option Nat
  stream : List UInt8
  thread : FlushThread
  written : List UInt8
  stderr : List UInt8
  logged : List (List UInt8)

/-- An `errno` of a failing `open`. -/
inductive OpenError where
  | eexist
  | other

/-- What the two forms of `open` yield at the time of an `Init`. -/
structure OpenOutcome where
  exclusive : Except OpenError Nat
  existing : Option Nat

inductive LogAction where
  | onLogMessage (logContent : List UInt8)
  | take (outcome : OpenOutcome)
  | test
  | write
  | close

namespace AsyncLogSink

variable (settings : LoggingSettings)

def init (autoCreate : Bool) (outcome : OpenOutcome) (sink : AsyncLogSink) : Bool × AsyncLogSink :=
  match sink.logFd with
  | some _ => (true, sink)
  | none =>
    let logFd :=
      if autoCreate then
        match outcome.exclusive with
        | .ok fd => some fd
        | .error .eexist => outcome.existing
        | .error .other => none
      else outcome.existing
    match logFd with
    | some fd => (true, { sink with logFd := some fd })
    | none => (false, { sink with stderr := sink.stderr ++ settings.failToInit })

def onLogMessage (logContent : List UInt8) (sink : AsyncLogSink) : AsyncLogSink :=
  let shown :=
    { sink with
      stderr := sink.stderr ++ settings.debugLog logContent
      logged := sink.logged ++ [logContent] }
  if settings.ToFile then { shown with stream := shown.stream ++ logContent } else shown

/-- The locked block of a round of `Run`. -/
def take (outcome : OpenOutcome) (sink : AsyncLogSink) : AsyncLogSink :=
  match sink.thread with
  | .asleep =>
    let opened := (init settings false outcome sink).2
    { opened with thread := .took opened.stream, stream := [] }
  | _ => sink

variable (sink : AsyncLogSink)

/-- The condition after the locked block. -/
def test : AsyncLogSink :=
  match sink.thread with
  | .took text =>
    if sink.logFd.isSome ∧ text ≠ [] then { sink with thread := .writing text }
    else { sink with thread := .asleep }
  | _ => sink

/-- The `write` after the condition. -/
def write : AsyncLogSink :=
  match sink.thread with
  | .writing text => { sink with written := sink.written ++ text, thread := .asleep }
  | _ => sink

def close : AsyncLogSink := { sink with logFd := none }

def step (sink : AsyncLogSink) : LogAction → AsyncLogSink
  | .onLogMessage logContent => sink.onLogMessage settings logContent
  | .take outcome => sink.take settings outcome
  | .test => sink.test
  | .write => sink.write
  | .close => sink.close

/-- A new sink whose constructor has opened the log file. -/
def start (fd : Nat) : AsyncLogSink := ⟨some fd, [], .asleep, [], [], []⟩

/-- Between two rounds of the flush thread, the bytes written and the bytes in the stream are those
of the messages. -/
def Complete : Prop :=
  match sink.thread with
  | .asleep => sink.written ++ sink.stream = sink.logged.flatten
  | _ => True

/-- The flush thread does not find the file closed with text in its hands. -/
def Keeps : LogAction → Prop
  | .test =>
    match sink.thread with
    | .took text => sink.logFd.isSome ∨ text = []
    | _ => True
  | _ => True

def held : List UInt8 :=
  match sink.thread with
  | .asleep => []
  | .took text => text
  | .writing text => text

/-- Every byte of the messages is written, held or in the stream, in this order. -/
def Accounted : Prop :=
  sink.written ++ (sink.held ++ sink.stream) = sink.logged.flatten

theorem init_snd_eq (autoCreate : Bool) (out : OpenOutcome) (sink : AsyncLogSink) :
    ∃ logFd stderr, (init settings autoCreate out sink).2 =
      { sink with logFd := logFd, stderr := stderr } := by
  simp only [init]
  split
  · exact ⟨_, _, rfl⟩
  · split
    · exact ⟨_, _, rfl⟩
    · exact ⟨_, _, rfl⟩

variable {settings : LoggingSettings} {sink : AsyncLogSink}

section

variable (accounted : Accounted sink)
include accounted

theorem Accounted.complete : Complete sink := by
  rw [Accounted, held] at accounted
  rw [Complete]
  cases thread : sink.thread with
  | asleep => simpa [thread] using accounted
  | took | writing => trivial

theorem Accounted.onLogMessage (toFile : settings.ToFile)
    (log : List UInt8) : Accounted (sink.onLogMessage settings log) := by
  rw [AsyncLogSink.onLogMessage, if_pos toFile]
  change sink.written ++ (sink.held ++ (sink.stream ++ log)) =
    (sink.logged ++ [log]).flatten
  rw [List.flatten_append, ← accounted]
  simp

theorem Accounted.take (out : OpenOutcome) : Accounted (sink.take settings out) := by
  rw [AsyncLogSink.take]
  split
  · next thread =>
    obtain ⟨logFd, stderr, opened_eq⟩ := init_snd_eq settings false out sink
    rw [opened_eq]
    rw [Accounted, held, thread] at accounted
    simpa [Accounted, held] using accounted
  · exact accounted

theorem Accounted.test (keeps : Keeps sink .test) : Accounted sink.test := by
  rw [AsyncLogSink.test]
  rw [Keeps] at keeps
  split
  · next text thread =>
    rw [Accounted, held, thread] at accounted
    rw [thread] at keeps
    split
    · exact accounted
    · next refused =>
      have empty : text = [] := by
        rcases keeps with opened | empty
        · by_contra ne
          exact refused ⟨opened, ne⟩
        · exact empty
      rw [empty] at accounted
      exact accounted
  · exact accounted

theorem Accounted.write : Accounted sink.write := by
  rw [AsyncLogSink.write]
  split
  · next text thread =>
    rw [Accounted, held, thread] at accounted
    simpa [Accounted, held] using accounted
  · exact accounted

theorem Accounted.step (toFile : settings.ToFile)
    {action : LogAction} (keeps : Keeps sink action) : Accounted (sink.step settings action) := by
  cases action with
  | onLogMessage log => exact accounted.onLogMessage toFile log
  | take out => exact accounted.take out
  | test => exact accounted.test keeps
  | write => exact accounted.write
  | close => exact accounted

theorem Accounted.keeps_of_complete {action : LogAction}
    (full : Complete (sink.step settings action)) : Keeps sink action := by
  cases action with
  | test =>
    rw [Keeps]
    rw [Accounted, held] at accounted
    rw [AsyncLogSink.step, AsyncLogSink.test] at full
    cases thread : sink.thread with
    | took text =>
      rw [thread] at accounted full
      by_contra! dropped
      simp only [dropped, Bool.false_eq_true, false_and, if_false, Complete] at full
      have missing := List.append_cancel_left (full.trans accounted.symm)
      exact dropped.2 (List.self_eq_append_left.mp missing)
    | asleep => trivial
    | writing text => trivial
  | onLogMessage | take | write | close => trivial

end

/-- No byte is missing between two rounds of the flush thread exactly when it never finds the file
closed with text in its hands. -/
theorem everyState_complete_iff (toFile : settings.ToFile) (fd : Nat) (actions : List LogAction) :
    Execution.EveryState (step settings) Complete (start fd) actions ↔
      Execution.EveryStep (step settings) Keeps (start fd) actions :=
  Execution.everyState_iff_everyStep Accounted rfl (fun _ accounted => accounted.complete)
    (fun _ _ accounted keeps => accounted.step toFile keeps)
    fun _ _ _ accounted complete => accounted.keeps_of_complete complete

def absentFile : OpenOutcome := ⟨.ok 4, none⟩

/-- A message that is logged while the file is open, and written before the file is closed. -/
theorem everyState_complete_flushed : Execution.EveryState (step fileSettings) Complete (start 3)
      [.onLogMessage [97], .take absentFile, .test, .write, .close] := by
  refine (everyState_complete_iff toFile_fileSettings 3 _).mpr ?_
  simp [Execution.everyStep_cons, Keeps, step, take, init, onLogMessage, start, toFile_fileSettings]

/-- A message that is in the stream when the file has been moved away is lost. -/
theorem not_everyState_complete : ¬Execution.EveryState (step fileSettings) Complete (start 3)
      [.onLogMessage [97], .close, .take absentFile, .test] := by
  intro every
  have final : ([] : List UInt8) = [97] := every.final
  cases final

end AsyncLogSink
end McBrpc
