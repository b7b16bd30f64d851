import McBrpc.Library.Execution
import McBrpc.Policy.Http2Errors

/-!
# Runs of an HTTP/2 connection

A connection receives bytes and consumes them frame by frame, as `ParseH2Message` does.  Nothing
stops a connection that has answered an error with GOAWAY, so only the last frame of a run may
cause one.
-/

namespace McBrpc.Http2

open Hpack H2Context Execution

namespace H2Context

/-- The context that has given a stream its number and its part of the window. -/
def allocated (ctx : H2Context) (dataSize : Nat) : H2Context :=
  { ctx with
    lastSentStreamId := ctx.lastSentStreamId + 2
    remoteWindowLeft := ctx.remoteWindowLeft - dataSize }

/-- The context after `H2UnsentRequest::AppendAndDestroySelf` of a request with so many bytes of
data, but for the deferred window update and the tables of the encoder.  A stream that is not
inserted keeps its number and its part of the window. -/
def appendRequest (ctx : H2Context) (dataSize : Nat) : H2Context :=
  if ctx.remoteSettings.maxConcurrentStreams < ctx.pendingStreams.entries.length then
    ctx
  else if 0x7FFFFFFF < ctx.lastSentStreamId then
    ctx
  else if dataSize ≠ 0 ∧
      (ctx.remoteSettings.streamWindowSize < dataSize ∨ ctx.remoteWindowLeft < dataSize) then
    ctx.allocated 0
  else
    match (ctx.allocated dataSize).tryToInsertStream ctx.lastSentStreamId
        { ctx.newStream ctx.lastSentStreamId with
          remoteWindowLeft := ctx.remoteSettings.streamWindowSize - dataSize } with
    | .inserted ctx' => ctx'
    | _ => ctx.allocated dataSize

/-- The context after `H2UnsentResponse::AppendAndDestroySelf`, with the same left out. -/
def appendResponse (ctx : H2Context) (dataSize : Nat) : H2Context :=
  if ctx.remoteWindowLeft < dataSize then ctx
  else { ctx with remoteWindowLeft := ctx.remoteWindowLeft - dataSize }

def addAbandonedStream (ctx : H2Context) (streamId : Nat) : H2Context :=
  { ctx with abandonedStreams := ctx.abandonedStreams ++ [streamId] }

end H2Context

/-- A connection: its context, the bytes behind the read position, and whether it has ended. -/
structure Connection where
  ctx : H2Context
  buffer : List UInt8 := []
  closed : Bool := false

inductive Event where
  | receive (bytes : List UInt8)
  | consume (env : Environment)
  | clearAbandonedStreams (env : Environment)
  | abandon (streamId : Nat)
  | request (dataSize : Nat)
  | respond (dataSize : Nat)

namespace Connection

/-- A connection behind the constructor of its context and `Init`. -/
def start (clientSide : Bool) (settings : H2Settings) (hpacker : HPacker) : Connection :=
  { ctx := { clientSide, unackLocalSettings := settings, hpacker } }

variable (conn : Connection)

/-- One round of `ParseH2Message`: the position moves on when `Consume` returns ok.  More bytes may
complete a frame, any other error ends the connection. -/
def consumed : Option Parsed → Connection
  | none => { conn with closed := true }
  | some parsed =>
    match parsed.result with
    | .message _ => { conn with ctx := parsed.ctx, buffer := parsed.it }
    | .error .notEnoughData => { conn with ctx := parsed.ctx }
    | .error _ => { conn with ctx := parsed.ctx, closed := true }

def step (event : Event) : Connection :=
  if conn.closed then
    conn
  else
    match event with
    | .receive bytes => { conn with buffer := conn.buffer ++ bytes }
    | .consume env => conn.consumed (conn.ctx.consume env conn.buffer)
    | .clearAbandonedStreams env => { conn with ctx := conn.ctx.clearAbandonedStreams env }
    | .abandon streamId => { conn with ctx := conn.ctx.addAbandonedStream streamId }
    | .request dataSize => { conn with ctx := conn.ctx.appendRequest dataSize }
    | .respond dataSize => { conn with ctx := conn.ctx.appendResponse dataSize }

/-- The frame that a call of `Consume` would hand to its handler. -/
def frame? : Option (H2FrameHead × List UInt8) :=
  if conn.closed = false ∧ conn.ctx.connState = .ready then
    (consumeFrameHead conn.ctx.localSettings.maxFrameSize conn.buffer).toOption
  else
    none

/-- A condition on the frame that an event processes, if it processes one. -/
def OnFrame (condition : Environment → H2FrameHead → List UInt8 → Prop) (conn : Connection) :
    Event → Prop
  | .consume env =>
    match conn.frame? with
    | some (head, payload) => condition env head payload
    | none => True
  | _ => True

instance (condition : Environment → H2FrameHead → List UInt8 → Prop)
    [∀ env head payload, Decidable (condition env head payload)] (conn : Connection)
    (event : Event) : Decidable (OnFrame condition conn event) := by
  unfold OnFrame
  repeat' split
  all_goals infer_instance

/-- Every processed frame can be read to its end. -/
def LegibleFrame (event : Event) : Prop :=
  OnFrame (fun _ head payload => Legible conn.ctx head payload) conn event

instance (event : Event) : Decidable (conn.LegibleFrame event) :=
  inferInstanceAs (Decidable (OnFrame _ conn event))

/-- Every processed frame is handled without an error of the connection. -/
def RegularFrame (event : Event) : Prop :=
  OnFrame (fun env head payload => Regular env conn.ctx head payload) conn event

instance (event : Event) : Decidable (conn.RegularFrame event) :=
  inferInstanceAs (Decidable (OnFrame _ conn event))

/-- `Consume`, if it returns ok, leaves the position at the end of the frame. -/
def EndsAfter (env : Environment) (head : H2FrameHead) : Prop :=
  match conn.ctx.consume env conn.buffer with
  | some ⟨.message _, _, it⟩ => it = conn.buffer.drop (frameHeadSize + head.payloadSize)
  | _ => True

instance (env : Environment) (head : H2FrameHead) : Decidable (conn.EndsAfter env head) := by
  unfold EndsAfter
  split <;> infer_instance

/-- A frame is processed only while no GOAWAY was answered, none of its lengths wraps, and the next
frame is looked for behind it. -/
def SoundFrame (event : Event) : Prop :=
  OnFrame (fun env head payload =>
    Unanswered conn.ctx ∧ NoWrap head payload ∧ conn.EndsAfter env head) conn event

instance (event : Event) : Decidable (conn.SoundFrame event) :=
  inferInstanceAs (Decidable (OnFrame _ conn event))

end Connection

section Steps

variable {conn : Connection} {env : Environment} {head : H2FrameHead} {payload : List UInt8}

theorem frame?_eq_some (found : conn.frame? = some (head, payload)) :
    conn.closed = false ∧ conn.ctx.connState = .ready ∧
      consumeFrameHead conn.ctx.localSettings.maxFrameSize conn.buffer = .ok (head, payload) := by
  unfold Connection.frame? at found
  split at found
  · next open_ready =>
    cases read : consumeFrameHead conn.ctx.localSettings.maxFrameSize conn.buffer with
    | error error => simp [read, Except.toOption] at found
    | ok frame =>
      rw [read] at found
      exact ⟨open_ready.1, open_ready.2, by rw [Option.some.inj found]⟩
  · simp at found

theorem consume_frame (found : conn.frame? = some (head, payload)) :
    conn.ctx.consume env conn.buffer = (conn.ctx.handle env head payload).map (answer env) := by
  obtain ⟨-, ready, read⟩ := frame?_eq_some found
  rw [H2Context.consume, ready]
  simp [read]

theorem it_answer (h : Handled) : (answer env h).it = h.it := by
  unfold answer
  repeat' split
  all_goals rfl

theorem endsAfter_of_legible (found : conn.frame? = some (head, payload))
    (legible : Legible conn.ctx head payload) : NoWrap head payload ∧ conn.EndsAfter env head := by
  obtain ⟨-, -, read⟩ := frame?_eq_some found
  obtain ⟨payload_eq, present⟩ := consumeFrameHead_ok read
  have small := payloadSize_lt_of_consumeFrameHead read
  have inside : head.payloadSize ≤ payload.length := by
    rw [payload_eq, List.length_drop]
    omega
  refine ⟨noWrap_of_legible inside small legible, ?_⟩
  unfold Connection.EndsAfter
  rw [consume_frame found]
  cases handled : conn.ctx.handle env head payload with
  | none => trivial
  | some h =>
    have it_eq : (answer env h).it = conn.buffer.drop (frameHeadSize + head.payloadSize) := by
      rw [it_answer, ((handle_it_iff inside small handled).mpr legible).1, payload_eq,
        List.drop_drop]
    split
    · next parsed_eq =>
      rw [Option.some.inj parsed_eq] at it_eq
      exact it_eq
    · trivial

theorem unanswered_serializeSettings {ctx : H2Context} (before : Unanswered ctx)
    (opts : H2Settings) :
    Unanswered (ctx.writeAck env (serializeH2SettingsFrameAndWU opts)) := by
  refine unanswered_writeAck before ?_
  unfold serializeH2SettingsFrameAndWU
  split <;> simp [windowUpdateFrame]

variable {ctx : H2Context}

section

variable (before : Unanswered ctx)
include before

theorem unanswered_start (it : List UInt8) : Unanswered (ctx.start env it).ctx := by
  unfold start
  repeat' split
  · exact before
  · exact before
  · exact before
  · exact @unanswered_serializeSettings env { ctx with connState := .ready } before _
  · exact @unanswered_writeAck env { ctx with connState := .ready } before _ (by simp)

theorem unanswered_clearAbandonedStreams : Unanswered (ctx.clearAbandonedStreams env) := by
  unfold clearAbandonedStreams
  induction ctx.abandonedStreams with
  | nil => exact before
  | cons sid streams ih => exact unanswered_removeStreamAndDeferWU ih sid

theorem unanswered_tryToInsertStream {ctx' : H2Context} {sid : Nat}
    {sctx : H2StreamContext} (ins : ctx.tryToInsertStream sid sctx = .inserted ctx')
    : Unanswered ctx' := by
  unfold tryToInsertStream at ins
  split at ins
  · simp at ins
  · split at ins
    · simp at ins
    · obtain rfl := Insertion.inserted.inj ins
      exact before

theorem unanswered_allocated (dataSize : Nat) : Unanswered (ctx.allocated dataSize) := before

theorem unanswered_appendRequest (dataSize : Nat) : Unanswered (ctx.appendRequest dataSize) := by
  unfold appendRequest
  repeat' split
  · exact before
  · exact before
  · exact unanswered_allocated before 0
  · next ins =>
    exact unanswered_tryToInsertStream (unanswered_allocated before dataSize) ins
  · exact unanswered_allocated before dataSize

end

/-- A call of `Consume` on a regular frame does not write a GOAWAY frame. -/
theorem unanswered_consume (isOpen : conn.closed = false) (before : Unanswered conn.ctx)
    (regular : conn.RegularFrame (.consume env)) {parsed : Parsed}
    (used : conn.ctx.consume env conn.buffer = some parsed) : Unanswered parsed.ctx := by
  cases state : conn.ctx.connState with
  | uninitialized =>
    rw [H2Context.consume, state] at used
    obtain rfl := Option.some.inj used
    exact unanswered_start before _
  | goaway =>
    rw [H2Context.consume, state] at used
    obtain rfl := Option.some.inj used
    exact before
  | ready =>
    cases found : conn.frame? with
    | none =>
      rw [H2Context.consume, state] at used
      rw [Connection.frame?, if_pos ⟨isOpen, state⟩] at found
      cases read : consumeFrameHead conn.ctx.localSettings.maxFrameSize conn.buffer with
      | error error =>
        rw [read] at used
        obtain rfl := Option.some.inj used
        exact before
      | ok frame => simp [read, Except.toOption] at found
    | some frame =>
      obtain ⟨head, payload⟩ := frame
      have regular : Regular env conn.ctx head payload := by
        simpa [Connection.RegularFrame, Connection.OnFrame, found] using regular
      rw [consume_frame found] at used
      obtain ⟨h, handled, rfl⟩ := Option.map_eq_some_iff.mp used
      exact unanswered_answer (unanswered_handle before handled)
        ((handle_regular_iff handled).mpr regular)

theorem unanswered_step {event : Event} (before : Unanswered conn.ctx)
    (regular : conn.RegularFrame event) : Unanswered (conn.step event).ctx := by
  unfold Connection.step
  split
  · exact before
  · next isOpen =>
    have isOpen : conn.closed = false := by simpa using isOpen
    cases event with
    | receive bytes => exact before
    | clearAbandonedStreams env => exact unanswered_clearAbandonedStreams before
    | abandon sid => exact before
    | request dataSize => exact unanswered_appendRequest before dataSize
    | respond dataSize =>
      simp only [appendResponse]
      split <;> exact before
    | consume env =>
      simp only
      cases used : conn.ctx.consume env conn.buffer with
      | none => exact before
      | some parsed =>
        have after := unanswered_consume isOpen before regular used
        simp only [Connection.consumed]
        split <;> exact after

end Steps

/-- In a run whose frames are all legible, and all but the last of them regular, every `Consume`
that returns ok leaves the position at the end of the frame, no length wraps, and no frame is
processed behind a GOAWAY. -/
theorem Connection.everyStep_soundFrame (clientSide : Bool) (settings : H2Settings)
    (hpacker : HPacker) (events : List Event) (last : Event)
    (legible : EveryStep step LegibleFrame (start clientSide settings hpacker) (events ++ [last]))
    (regular : EveryStep step RegularFrame (start clientSide settings hpacker) events) :
    EveryStep step SoundFrame (start clientSide settings hpacker) (events ++ [last]) := by
  have unanswered :=
    everyState_of_everyStep (fun conn => Unanswered conn.ctx) (by simp [Unanswered, start])
      (fun conn event before admitted => unanswered_step before admitted) regular
  intro history event isPrefix
  have before := unanswered.everyStep_concat last history event isPrefix
  have readable := legible history event isPrefix
  generalize history.foldl step (start clientSide settings hpacker) = conn at before readable
  unfold LegibleFrame at readable
  unfold SoundFrame
  cases event with
  | consume env =>
    cases found : conn.frame? with
    | none => simp [OnFrame, found]
    | some frame =>
      simp only [OnFrame, found] at readable ⊢
      exact ⟨before, endsAfter_of_legible found readable⟩
  | receive _ | clearAbandonedStreams _ | abandon _ | request _ | respond _ => trivial

def newPacker : HPacker :=
  ⟨IndexTable.new 62 true 4096 120, IndexTable.new 62 false 4096 120⟩

/-- A server that receives its preface and some bytes, and then consumes so many times. -/
def serverRun (bytes : List UInt8) (calls : Nat) : List Event :=
  .receive (connectionPreface ++ bytes) ::
    List.replicate calls (.consume { writable := fun _ => true })

/-- Settings, a request, a PING, padded DATA of an unknown stream, and then an empty PRIORITY frame,
which is answered with GOAWAY. -/
def mixedFrames : List UInt8 :=
  [0, 0, 0, 4, 0, 0, 0, 0, 0] ++ [0, 0, 3, 1, 5, 0, 0, 0, 1, 0x82, 0x84, 0x86] ++
    [0, 0, 8, 6, 0, 0, 0, 0, 0, 1, 2, 3, 4, 5, 6, 7, 8] ++ [0, 0, 3, 0, 8, 0, 0, 0, 3, 1, 97, 0] ++
    [0, 0, 0, 2, 0, 0, 0, 0, 1]

theorem Connection.everyStep_soundFrame_server :
    EveryStep Connection.step Connection.SoundFrame (Connection.start false {} newPacker)
      (serverRun mixedFrames 5 ++ [.consume { writable := fun _ => true }]) :=
  everyStep_soundFrame false {} newPacker (serverRun mixedFrames 5)
    (.consume { writable := fun _ => true }) (by decide +kernel) (by decide +kernel)

/-- The acknowledgement of a PING is not read, so its payload is taken for the next frame.  A padded
DATA frame without payload has a wrapped length.  Behind a GOAWAY the next PING is answered. -/
theorem Connection.not_everyStep_soundFrame :
    (¬ EveryStep Connection.step Connection.SoundFrame (Connection.start false {} newPacker)
        (serverRun [0, 0, 8, 6, 1, 0, 0, 0, 0, 1, 2, 3, 4, 5, 6, 7, 8] 2)) ∧
      (¬ EveryStep Connection.step Connection.SoundFrame (Connection.start false {} newPacker)
        (serverRun [0, 0, 0, 0, 8, 0, 0, 0, 1, 0] 2)) ∧
      ¬ EveryStep Connection.step Connection.SoundFrame (Connection.start false {} newPacker)
        (serverRun ([0, 0, 0, 2, 0, 0, 0, 0, 1] ++
          [0, 0, 8, 6, 0, 0, 0, 0, 0, 1, 2, 3, 4, 5, 6, 7, 8]) 3) := by
  decide +kernel

end McBrpc.Http2
