import McBrpc.Policy.Http2Stream

/-!
# The context of an HTTP/2 connection

`H2Context` with its frame handlers and `Consume`.  A handler reads from the iterator behind the
frame head; what it leaves unread is where the next frame head is looked for.
-/

namespace McBrpc.Http2

open Hpack BigEndian

/-- `H2Error`, as far as the handlers report it. -/
inductive H2Error where
  | protocolError
  | internalError
  | flowControlError
  | streamClosedError
  | frameSizeError
  | refusedStream
deriving DecidableEq, Repr

def H2Error.code : H2Error → Nat
  | .protocolError => 0x1
  | .internalError => 0x2
  | .flowControlError => 0x3
  | .streamClosedError => 0x5
  | .frameSizeError => 0x6
  | .refusedStream => 0x7

/-- `H2ErrorToStatusCode`, on any number received as an error. -/
def h2ErrorToStatusCode (error : Nat) : Nat :=
  match error with
  | 0x0 => 200
  | 0x4 => 504
  | 0x5 => 400
  | 0x7 | 0x8 | 0xb => 503
  | 0xc => 401
  | 0xd => 505
  | _ => 500

/-- `H2ParseResult`: a message, possibly none, or an error.  An error of stream 0 is one of the
connection. -/
inductive H2ParseResult where
  | message (message : Option H2StreamContext)
  | error (error : H2Error) (streamId : Nat)
deriving DecidableEq, Repr

inductive H2ConnectionState where
  | uninitialized
  | ready
  | goaway
deriving DecidableEq, Repr

/-- What a call of `Consume` meets outside the context: whether the acknowledgement of a given
number can be written, and after how many bytes a progressive reader refuses the body. -/
structure Environment where
  writable : Nat → Bool
  bodyRefused : Option Nat := none

/-- `H2Context`.  `acks` counts the calls of `WriteAck`, `written` holds the frames they sent. -/
structure H2Context where
  clientSide : Bool
  connState : H2ConnectionState := .uninitialized
  lastReceivedStreamId : Int := -1
  lastSentStreamId : Nat := 1
  goawayStreamId : Int := -1
  remoteSettings : H2Settings :=
    { connectionWindowSize := 0, streamWindowSize := maxWindowSize }
  remoteSettingsReceived : Bool := false
  localSettings : H2Settings := {}
  unackLocalSettings : H2Settings
  remoteWindowLeft : Int := maxWindowSize
  deferredWindowUpdate : Nat := 0
  hpacker : HPacker
  abandonedStreams : List Nat := []
  pendingStreams : KeyedMap Nat H2StreamContext := ∅
  acks : Nat := 0
  written : List Frame := []

/-- What a handler leaves: its result, the context and the iterator. -/
structure Handled where
  result : H2ParseResult
  ctx : H2Context
  it : List UInt8

/-- `uint32_t` subtraction. -/
def sub32 (a b : Nat) : Nat := (a + 2 ^ 32 - b) % 2 ^ 32

/-- The `int` with the bits of a `uint32_t`. -/
def toInt32 (n : Nat) : Int := if n < 2 ^ 31 then n else n - 2 ^ 32

def statusServiceUnavailable : Nat := 503

/-- A stream context whose deferred window update was released. -/
def H2StreamContext.released (sctx : H2StreamContext) : H2StreamContext :=
  { sctx with deferredWindowUpdate := 0 }

/-- The bytes of a frame count as parsed by its stream. -/
def H2StreamContext.parsed (sctx : H2StreamContext) (head : H2FrameHead) : H2StreamContext :=
  { sctx with parsedLength := sctx.parsedLength + frameHeadSize + head.payloadSize }

namespace H2Context

variable (env : Environment) (ctx : H2Context)

/-- A connection error, `MakeH2Error(error)`. -/
def fail (error : H2Error) (it : List UInt8) : Handled :=
  ⟨.error error 0, ctx, it⟩

/-- `MakeH2Message(NULL)` -/
def noMessage (it : List UInt8) : Handled := ⟨.message none, ctx, it⟩

/-- `WriteAck`; its return value is `env.writable ctx.acks`. -/
def writeAck (frames : List Frame) : H2Context :=
  { ctx with
    acks := ctx.acks + 1
    written := if env.writable ctx.acks then ctx.written ++ frames else ctx.written }

def deferWindowUpdate (size : Nat) : H2Context :=
  if size = 0 then
    ctx
  else if ctx.localSettings.streamWindowSize / 2 ≤ ctx.deferredWindowUpdate + size then
    writeAck env { ctx with deferredWindowUpdate := 0 }
      [windowUpdateFrame 0 (ctx.deferredWindowUpdate + size)]
  else
    { ctx with deferredWindowUpdate := ctx.deferredWindowUpdate + size }

def findStream (streamId : Nat) : Option H2StreamContext :=
  ctx.pendingStreams.find? streamId

/-- Write a stream context back.  A temporary one is not among the pending streams and is lost. -/
def update (streamId : Nat) (sctx : H2StreamContext) : H2Context :=
  if (ctx.findStream streamId).isSome then
    { ctx with pendingStreams := ctx.pendingStreams.insert streamId sctx }
  else
    ctx

/-- The context after `RemoveStreamAndDeferWU`; what it returns is `removed`. -/
def removeStreamAndDeferWU (streamId : Nat) : H2Context :=
  match ctx.findStream streamId with
  | none => ctx
  | some sctx =>
    deferWindowUpdate env { ctx with pendingStreams := ctx.pendingStreams.erase streamId }
      sctx.deferredWindowUpdate

/-- The stream that `RemoveStreamAndDeferWU` returns. -/
def removed (streamId : Nat) : Option H2StreamContext :=
  (ctx.findStream streamId).map H2StreamContext.released

/-- A stream context behind its constructor and `Init`. -/
def newStream (streamId : Nat) : H2StreamContext :=
  { streamId, remoteWindowLeft := ctx.remoteSettings.streamWindowSize }

def onEndStream (streamId : Nat) (it : List UInt8) : Handled :=
  ⟨.message (ctx.removed streamId), ctx.removeStreamAndDeferWU env streamId, it⟩

variable (head : H2FrameHead)

def finishData (it : List UInt8) : Handled :=
  if head.has flagsEndStream then ctx.onEndStream env head.streamId it else ctx.noMessage it

/-- The flow control of `H2StreamContext::OnData`, when `acc` bytes wait for an update. -/
def accountData (sctx : H2StreamContext) (head : H2FrameHead) (it : List UInt8)
    (acc : Nat) : Handled × H2StreamContext :=
  if ctx.localSettings.streamWindowSize / 2 ≤ acc then
    if ctx.localSettings.streamWindowSize < acc then
      (⟨.error .flowControlError head.streamId,
        ctx.update head.streamId { sctx with deferredWindowUpdate := acc }, it⟩,
        { sctx with deferredWindowUpdate := acc })
    else if acc = 0 then
      ((ctx.update head.streamId sctx.released).finishData env head it, sctx.released)
    else if env.writable ctx.acks then
      ((writeAck env { ctx.update head.streamId sctx.released with deferredWindowUpdate := 0 }
          [windowUpdateFrame head.streamId acc,
            windowUpdateFrame 0 (acc + ctx.deferredWindowUpdate)]).finishData env head it,
        sctx.released)
    else
      ((writeAck env { ctx.update head.streamId sctx.released with deferredWindowUpdate := 0 }
          [windowUpdateFrame head.streamId acc,
            windowUpdateFrame 0 (acc + ctx.deferredWindowUpdate)]).fail .internalError it,
        sctx.released)
  else
    ((ctx.update head.streamId { sctx with deferredWindowUpdate := acc }).finishData env head it,
      { sctx with deferredWindowUpdate := acc })

/-- `H2StreamContext::OnData`.  A reader that refuses the data has taken a part of it. -/
def streamOnData (bodyRefused : Option Nat) (ctx : H2Context) (sctx : H2StreamContext)
    (head : H2FrameHead) (fragSize padLength : Nat) (it : List UInt8) : Handled × H2StreamContext :=
  match bodyRefused with
  | some taken =>
    if it.take fragSize = [] then
      ctx.accountData env (sctx.parsed head) head ((it.drop fragSize).drop padLength)
        (sctx.deferredWindowUpdate + fragSize)
    else
      ((ctx.update head.streamId
          { sctx.parsed head with body := sctx.body ++ (it.take fragSize).take taken }).fail
          .protocolError ((it.drop fragSize).drop padLength),
        { sctx.parsed head with body := sctx.body ++ (it.take fragSize).take taken })
  | none =>
    ctx.accountData env { sctx.parsed head with body := sctx.body ++ it.take fragSize } head
      ((it.drop fragSize).drop padLength) (sctx.deferredWindowUpdate + fragSize)

/-- The bytes in front of the data: the pad length, if the frame is padded. -/
def dataExtra : Nat := if head.has flagsPadded then 1 else 0

/-- `frag_size` of a DATA frame behind the pad length. -/
def dataSize : Nat := sub32 head.payloadSize (dataExtra head)

/-- `pad_length` of a DATA or HEADERS frame. -/
def padLength (it : List UInt8) : Nat :=
  if head.has flagsPadded then loadUint 1 it else 0

def onData (it : List UInt8) : Handled :=
  if dataSize head < padLength head it then
    ctx.fail .frameSizeError (it.drop (dataExtra head))
  else
    match ctx.findStream head.streamId with
    | none =>
      let tmp := ctx.streamOnData env none (ctx.newStream head.streamId) head
        (sub32 (dataSize head) (padLength head it)) (padLength head it)
        (it.drop (dataExtra head))
      ⟨.error .streamClosedError head.streamId,
        deferWindowUpdate env tmp.1.ctx tmp.2.deferredWindowUpdate, tmp.1.it⟩
    | some sctx =>
      (ctx.streamOnData env env.bodyRefused sctx head
        (sub32 (dataSize head) (padLength head it)) (padLength head it)
        (it.drop (dataExtra head))).1

/-- The end of `H2StreamContext::OnHeaders`, when the fragment was consumed. -/
def finishHeaders (sctx : H2StreamContext) (head : H2FrameHead) (bytesLeft it : List UInt8) :
    Handled :=
  if head.has flagsEndHeaders then
    if bytesLeft ≠ [] then
      (ctx.update head.streamId sctx).fail .protocolError it
    else if head.has flagsEndStream then
      (ctx.update head.streamId sctx).onEndStream env head.streamId it
    else
      (ctx.update head.streamId sctx).noMessage it
  else
    (ctx.update head.streamId
      { sctx with streamEnded := sctx.streamEnded || head.has flagsEndStream }).noMessage it

def streamOnHeaders (sctx : H2StreamContext) (head : H2FrameHead) (fragSize padLength : Nat)
    (it : List UInt8) : Option Handled :=
  (consumeHeaders ctx.hpacker (it.take fragSize)).map fun c =>
    if c.ok then
      finishHeaders env { ctx with hpacker := c.packer }
        { sctx.parsed head with
          headers := sctx.headers ++ c.headers
          remainingHeaderFragment := sctx.remainingHeaderFragment ++ c.bytesLeft }
        head c.bytesLeft ((it.drop fragSize).drop padLength)
    else
      (update { ctx with hpacker := c.packer } head.streamId
        { sctx.parsed head with headers := sctx.headers ++ c.headers }).fail .protocolError it

def headersExtra : Nat :=
  (if head.has flagsPriority then 5 else 0) + if head.has flagsPadded then 1 else 0

/-- `frag_size` of a HEADERS frame behind the pad length and the priority. -/
def headersSize : Nat :=
  sub32 (sub32 head.payloadSize (if head.has flagsPadded then 1 else 0))
    (if head.has flagsPriority then 5 else 0)

/-- The return values of `TryToInsertStream`: -1, 1 or 0, where the stream is inserted. -/
inductive Insertion where
  | existing
  | refused
  | inserted (ctx : H2Context)

def tryToInsertStream (streamId : Nat) (sctx : H2StreamContext) : Insertion :=
  if 0 ≤ ctx.goawayStreamId ∧ ctx.goawayStreamId < streamId then
    .refused
  else if (ctx.findStream streamId).isSome then
    .existing
  else
    .inserted { ctx with pendingStreams := ctx.pendingStreams.insert streamId sctx }

/-- The context that has received a frame of a new stream. -/
def received (streamId : Nat) : H2Context :=
  { ctx with lastReceivedStreamId := streamId }

/-- The branch of `OnHeaders` in which a client opens a stream on a server. -/
def onNewStream (fragSize padLength : Nat) (it : List UInt8) : Option Handled :=
  if head.streamId % 2 = 0 then
    some (ctx.fail .protocolError it)
  else
    match (ctx.received head.streamId).tryToInsertStream head.streamId
        (ctx.newStream head.streamId) with
    | .existing => some ((ctx.received head.streamId).fail .protocolError it)
    | .refused => some ((ctx.received head.streamId).fail .refusedStream it)
    | .inserted ctx' =>
      ctx'.streamOnHeaders env (ctx.newStream head.streamId) head fragSize padLength it

def onHeaders (it : List UInt8) : Option Handled :=
  if head.streamId = 0 then
    some (ctx.fail .protocolError it)
  else if head.payloadSize < headersExtra head then
    some (ctx.fail .frameSizeError it)
  else if headersSize head < padLength head it then
    some (ctx.fail .frameSizeError (it.drop (headersExtra head)))
  else if ctx.clientSide = false ∧ ctx.lastReceivedStreamId < head.streamId then
    ctx.onNewStream env head (sub32 (headersSize head) (padLength head it)) (padLength head it)
      (it.drop (headersExtra head))
  else
    match ctx.findStream head.streamId with
    | some sctx =>
      ctx.streamOnHeaders env sctx head (sub32 (headersSize head) (padLength head it))
        (padLength head it) (it.drop (headersExtra head))
    | none =>
      if ctx.clientSide then
        -- What the temporary stream reports is not looked at.
        (ctx.streamOnHeaders env (ctx.newStream head.streamId) head
          (sub32 (headersSize head) (padLength head it)) (padLength head it)
          (it.drop (headersExtra head))).map fun h => h.ctx.noMessage h.it
      else
        some (ctx.fail .protocolError (it.drop (headersExtra head)))

/-- The end of `H2StreamContext::OnContinuation`, when the fragment was consumed. -/
def finishContinuation (sctx : H2StreamContext) (head : H2FrameHead) (bytesLeft it : List UInt8) :
    Handled :=
  if head.has flagsEndHeaders then
    if bytesLeft ≠ [] then
      (ctx.update head.streamId sctx).fail .protocolError it
    else if sctx.streamEnded then
      (ctx.update head.streamId sctx).onEndStream env head.streamId it
    else
      (ctx.update head.streamId sctx).noMessage it
  else
    (ctx.update head.streamId sctx).noMessage it

def streamOnContinuation (sctx : H2StreamContext) (head : H2FrameHead) (it : List UInt8) :
    Option Handled :=
  (consumeHeaders ctx.hpacker (sctx.remainingHeaderFragment ++ it.take head.payloadSize)).map
    fun c =>
      if c.ok then
        finishContinuation env { ctx with hpacker := c.packer }
          { sctx.parsed head with
            headers := sctx.headers ++ c.headers
            remainingHeaderFragment := c.bytesLeft }
          head c.bytesLeft (it.drop head.payloadSize)
      else
        (update { ctx with hpacker := c.packer } head.streamId { sctx.parsed head with
            headers := sctx.headers ++ c.headers
            remainingHeaderFragment :=
              sctx.remainingHeaderFragment ++ it.take head.payloadSize }).fail .protocolError
          (it.drop head.payloadSize)

def onContinuation (it : List UInt8) : Option Handled :=
  match ctx.findStream head.streamId with
  | some sctx => ctx.streamOnContinuation env sctx head it
  | none =>
    if ctx.clientSide then
      (ctx.streamOnContinuation env (ctx.newStream head.streamId) head it).map fun h =>
        h.ctx.noMessage h.it
    else
      some (ctx.fail .protocolError it)

/-- `OnResetStream` of the connection and of the stream. -/
def onResetStream (it : List UInt8) : Handled :=
  if head.payloadSize ≠ 4 then
    ctx.fail .frameSizeError it
  else
    match ctx.findStream head.streamId with
    | none => ctx.noMessage (it.drop 4)
    | some sctx =>
      if ctx.clientSide then
        ⟨.message (some { (sctx.parsed head).released with
            statusCode := some (h2ErrorToStatusCode (loadUint 4 it)) }),
          ctx.removeStreamAndDeferWU env head.streamId, it.drop 4⟩
      else
        (ctx.removeStreamAndDeferWU env head.streamId).noMessage (it.drop 4)

/-- The loop of `OnSettings` over the pending streams, up to one whose window cannot take the
difference. -/
def addWindowSizes (diff : Int) :
    List (Nat × H2StreamContext) → KeyedMap Nat H2StreamContext → KeyedMap Nat H2StreamContext
  | [], pending => pending
  | (streamId, sctx) :: streams, pending =>
    if AddsWindowSize sctx.remoteWindowLeft diff then
      addWindowSizes diff streams (pending.insert streamId
        { sctx with remoteWindowLeft := sctx.remoteWindowLeft + diff })
    else
      pending.insert streamId { sctx with remoteWindowLeft := sctx.remoteWindowLeft + diff }

/-- `OnSettings` behind the settings: the change of the stream windows and the acknowledgement. -/
def applySettings (diff : Int) (it : List UInt8) : Handled :=
  if diff = 0 ∨ ∀ sctx ∈ ctx.pendingStreams.values, AddsWindowSize sctx.remoteWindowLeft diff then
    if env.writable ctx.acks then
      (writeAck env { ctx with pendingStreams := windowsAdded ctx diff } [ack]).noMessage it
    else
      (writeAck env { ctx with pendingStreams := windowsAdded ctx diff } [ack]).fail
        .protocolError it
  else
    fail { ctx with pendingStreams := windowsAdded ctx diff } .flowControlError it
where
  windowsAdded (ctx : H2Context) (diff : Int) : KeyedMap Nat H2StreamContext :=
    if diff = 0 then ctx.pendingStreams
    else addWindowSizes diff (ctx.pendingStreams.entries.map fun entry => (entry.1, entry.2))
      ctx.pendingStreams
  ack : Frame := ⟨⟨0, .settings, flagsAck, 0⟩, []⟩

/-- The change of the window of a stream, when the settings of the other side became `ctx`'s. -/
def windowDiff (before after : H2Context) : Int :=
  (after.remoteSettings.streamWindowSize : Int) - before.remoteSettings.streamWindowSize

/-- The context behind settings that were parsed.  The first ones start from the defaults and take
back the large window that was assumed before. -/
def settingsParsed (parsed : ParsedSettings) : H2Context :=
  if ctx.remoteSettingsReceived then
    { ctx with remoteSettings := parsed.out }
  else
    { ctx with
      remoteSettings := parsed.out
      remoteWindowLeft :=
        ctx.remoteWindowLeft - ((maxWindowSize : Int) - defaultInitialWindowSize)
      remoteSettingsReceived := true }

/-- `ParseH2Settings` on the settings that `OnSettings` passes. -/
def readSettings (it : List UInt8) : ParsedSettings :=
  parseH2Settings (if ctx.remoteSettingsReceived then ctx.remoteSettings else {}) it
    head.payloadSize

/-- `H2Context::OnSettings`.  Settings that fail midway stay as far as they were read, except for
the first ones. -/
def onSettings (it : List UInt8) : Handled :=
  if head.streamId ≠ 0 then
    ctx.fail .protocolError it
  else if head.has flagsAck then
    if head.payloadSize ≠ 0 then
      ctx.fail .protocolError it
    else
      noMessage { ctx with localSettings := ctx.unackLocalSettings } it
  else if (ctx.readSettings head it).ok then
    (ctx.settingsParsed (ctx.readSettings head it)).applySettings env
      (windowDiff ctx (ctx.settingsParsed (ctx.readSettings head it)))
      (ctx.readSettings head it).it
  else if ctx.remoteSettingsReceived then
    fail { ctx with remoteSettings := (ctx.readSettings head it).out } .protocolError
      (ctx.readSettings head it).it
  else
    ctx.fail .protocolError (ctx.readSettings head it).it

/-- `H2Context::OnPriority` and `H2Context::OnPushPromise` -/
def onUnsupported (it : List UInt8) : Handled := ctx.fail .protocolError it

def onPing (it : List UInt8) : Handled :=
  if head.payloadSize ≠ 8 then
    ctx.fail .frameSizeError it
  else if head.streamId ≠ 0 then
    ctx.fail .protocolError it
  else if head.has flagsAck then
    ctx.noMessage it
  else if env.writable ctx.acks then
    (writeAck env ctx [⟨⟨8, .ping, flagsAck, 0⟩, it.take 8⟩]).noMessage (it.drop 8)
  else
    (writeAck env ctx [⟨⟨8, .ping, flagsAck, 0⟩, it.take 8⟩]).fail .protocolError (it.drop 8)

/-- The streams that `RemoveGoAwayStreams` takes out. -/
def isGoAwayStream (goawayStreamId : Int) (streamId : Nat) : Bool :=
  goawayStreamId = 0 || goawayStreamId < streamId

/-- The context after `RemoveGoAwayStreams`; what it takes out is `goAwayStreams`. -/
def removeGoAwayStreams (goawayStreamId : Int) : H2Context :=
  { ctx with
    goawayStreamId
    pendingStreams := ctx.pendingStreams.filterKeys fun id => !isGoAwayStream goawayStreamId id }

/-- The streams that `RemoveGoAwayStreams` takes out, with the status they get. -/
def goAwayStreams (goawayStreamId : Int) : List H2StreamContext :=
  (ctx.pendingStreams.filterKeys (isGoAwayStream goawayStreamId)).values.map fun sctx =>
    { sctx with statusCode := some statusServiceUnavailable }

/-- `last_stream_id` of a GOAWAY frame, read behind the additional debug data. -/
def lastStreamId (it : List UInt8) : Int :=
  toInt32 (loadUint 4 (it.drop (sub32 head.payloadSize 8)))

/-- `H2Context::OnGoAway`.  The first of the removed streams is returned; the others are processed
in the background. -/
def onGoAway (it : List UInt8) : Handled :=
  if head.payloadSize < 8 then
    ctx.fail .frameSizeError it
  else if head.streamId ≠ 0 then
    ctx.fail .protocolError it
  else if head.flags ≠ 0 then
    ctx.fail .protocolError it
  else if ctx.clientSide then
    ⟨.message (ctx.goAwayStreams (lastStreamId head it)).head?,
      ctx.removeGoAwayStreams (lastStreamId head it),
      (it.drop (sub32 head.payloadSize 8)).drop 8⟩
  else
    ctx.noMessage ((it.drop (sub32 head.payloadSize 8)).drop 8)

def onWindowUpdate (it : List UInt8) : Handled :=
  if head.payloadSize ≠ 4 then
    ctx.fail .frameSizeError it
  else if 2 ^ 31 ≤ loadUint 4 it ∨ loadUint 4 it = 0 then
    ctx.fail .protocolError (it.drop 4)
  else if head.streamId = 0 then
    if AddsWindowSize ctx.remoteWindowLeft (loadUint 4 it) then
      noMessage { ctx with remoteWindowLeft := ctx.remoteWindowLeft + loadUint 4 it } (it.drop 4)
    else
      fail { ctx with remoteWindowLeft := ctx.remoteWindowLeft + loadUint 4 it }
        .flowControlError (it.drop 4)
  else
    match ctx.findStream head.streamId with
    | none => ctx.noMessage (it.drop 4)
    | some sctx =>
      if AddsWindowSize sctx.remoteWindowLeft (loadUint 4 it) then
        (ctx.update head.streamId { sctx with
          remoteWindowLeft := sctx.remoteWindowLeft + loadUint 4 it }).noMessage (it.drop 4)
      else
        (ctx.update head.streamId { sctx with
          remoteWindowLeft := sctx.remoteWindowLeft + loadUint 4 it }).fail .flowControlError
          (it.drop 4)

/-- The handler of a frame type.  There is no result where the header tables read through a null
pointer. -/
def handle (it : List UInt8) : Option Handled :=
  match head.type with
  | .data => some (ctx.onData env head it)
  | .headers => ctx.onHeaders env head it
  | .priority => some (ctx.onUnsupported it)
  | .rstStream => some (ctx.onResetStream env head it)
  | .settings => some (ctx.onSettings env head it)
  | .pushPromise => some (ctx.onUnsupported it)
  | .ping => some (ctx.onPing env head it)
  | .goaway => some (ctx.onGoAway head it)
  | .windowUpdate => some (ctx.onWindowUpdate head it)
  | .continuation => ctx.onContinuation env head it

end H2Context

/-- `ParseResult` of `Consume` -/
inductive ParseResult where
  | message (message : Option H2StreamContext)
  | error (error : ParseError)
deriving DecidableEq, Repr

/-- What a call of `Consume` leaves. -/
structure Parsed where
  result : ParseResult
  ctx : H2Context
  it : List UInt8

namespace H2Context

/-- The RST_STREAM frame that answers an error of a stream. -/
def rstStreamFrame (streamId : Nat) (error : H2Error) : Frame :=
  ⟨⟨4, .rstStream, 0, streamId⟩, encode 4 error.code⟩

/-- The GOAWAY frame that answers an error of the connection. -/
def goawayFrame (ctx : H2Context) (error : H2Error) : Frame :=
  ⟨⟨8, .goaway, 0, 0⟩, encode 4 (ctx.lastReceivedStreamId % 2 ^ 32).toNat ++ encode 4 error.code⟩

/-- What `Consume` returns for a stream that was reset: a client gets it with a status. -/
def resetMessage (ctx : H2Context) (streamId : Nat) (error : H2Error) : Option H2StreamContext :=
  if ctx.clientSide then
    (ctx.removed streamId).map fun sctx =>
      { sctx with statusCode := some (h2ErrorToStatusCode error.code) }
  else
    none

/-- The end of `Consume`: errors are answered with RST_STREAM or GOAWAY.  The connection stays in
its state. -/
def answer (env : Environment) (handled : Handled) : Parsed :=
  match handled.result with
  | .message message => ⟨.message message, handled.ctx, handled.it⟩
  | .error error streamId =>
    if env.writable handled.ctx.acks then
      if streamId ≠ 0 then
        ⟨.message (handled.ctx.resetMessage streamId error),
          (handled.ctx.writeAck env [rstStreamFrame streamId error]).removeStreamAndDeferWU env
            streamId, handled.it⟩
      else
        ⟨.message none, handled.ctx.writeAck env [handled.ctx.goawayFrame error], handled.it⟩
    else
      ⟨.error .absolutelyWrong, handled.ctx.writeAck env [], handled.it⟩

/-- `H2_CONNECTION_PREFACE_PREFIX` -/
def connectionPreface : List UInt8 := ofAscii "PRI * HTTP/2.0\r\n\r\nSM\r\n\r\n"

/-- `Consume` before the connection is ready: a server waits for the preface and sends its
settings. -/
def start (env : Environment) (ctx : H2Context) (it : List UInt8) : Parsed :=
  if ctx.clientSide then
    ⟨.message none, { ctx with connState := .ready }, it⟩
  else if it.take connectionPreface.length ≠ connectionPreface.take it.length then
    ⟨.error .tryOthers, ctx, it⟩
  else if it.length < connectionPreface.length then
    ⟨.error .notEnoughData, ctx, it⟩
  else if env.writable ctx.acks then
    ⟨.message none, writeAck env { ctx with connState := .ready }
      (serializeH2SettingsFrameAndWU ctx.unackLocalSettings), it.drop connectionPreface.length⟩
  else
    ⟨.error .absolutelyWrong, writeAck env { ctx with connState := .ready } [], it⟩

def consume (env : Environment) (ctx : H2Context) (it : List UInt8) : Option Parsed :=
  match ctx.connState with
  | .uninitialized => some (ctx.start env it)
  | .ready =>
    match consumeFrameHead ctx.localSettings.maxFrameSize it with
    | .error error => some ⟨.error error, ctx, it⟩
    | .ok (head, payload) => (ctx.handle env head payload).map (answer env)
  | .goaway => some ⟨.error .noResource, ctx, it⟩

def clearAbandonedStreams (env : Environment) (ctx : H2Context) : H2Context :=
  ctx.abandonedStreams.foldr
    (fun streamId ctx => ctx.removeStreamAndDeferWU env streamId)
    { ctx with abandonedStreams := [] }

end H2Context

end McBrpc.Http2
