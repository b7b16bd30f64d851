import McBrpc.Policy.Http2Alignment

/-!
# Errors of the connection

`Regular` says which frames are handled without an error of the connection.  Such an error is the
only thing that makes `Consume` write a GOAWAY frame.
-/

namespace McBrpc.Http2

open Hpack H2Context Option Nat HPacker

/-- The result is an error that `Consume` answers with GOAWAY. -/
def Handled.isConnectionError (h : Handled) : Bool :=
  match h.result with
  | .error _ streamId => streamId == 0
  | .message _ => false

section Errors

variable (env : Environment) (ctx : H2Context) (head : H2FrameHead) (it : List UInt8)

def dataFragment : List UInt8 :=
  (it.drop (dataExtra head)).take (sub32 (dataSize head) (padLength head it))

/-- The bytes of a stream that wait for a window update behind a DATA frame. -/
def dataDeferred (sctx : H2StreamContext) (head : H2FrameHead) (it : List UInt8) : Nat :=
  sctx.deferredWindowUpdate + sub32 (dataSize head) (padLength head it)

/-- A DATA frame that pads inside its payload.  An unknown stream is answered on that stream; a
known one has its body taken and its window update written. -/
def RegularData : Prop :=
  padLength head it ≤ dataSize head ∧
    match ctx.findStream head.streamId with
    | none => head.streamId ≠ 0
    | some sctx =>
      (env.bodyRefused = none ∨ dataFragment head it = []) ∧
        if ctx.localSettings.streamWindowSize < dataDeferred sctx head it then
          head.streamId ≠ 0
        else
          ctx.localSettings.streamWindowSize / 2 ≤ dataDeferred sctx head it →
            dataDeferred sctx head it ≠ 0 → env.writable ctx.acks = true

/-- A HEADERS frame for a stream that may have it, with a fragment that can be decoded unless the
stream is one that a client has given up. -/
def RegularHeaders : Prop :=
  head.streamId ≠ 0 ∧ headersExtra head ≤ head.payloadSize ∧
    padLength head it ≤ headersSize head ∧ Admitted ctx head.streamId ∧
      (ctx.clientSide = true ∧ ctx.findStream head.streamId = none ∨
        Decodes ctx.hpacker ((it.drop (headersExtra head)).take
          (sub32 (headersSize head) (padLength head it))))

/-- A CONTINUATION frame that can be decoded behind what its stream has kept. -/
def RegularContinuation : Prop :=
  match ctx.findStream head.streamId with
  | none => ctx.clientSide = true
  | some sctx =>
    Decodes ctx.hpacker (sctx.remainingHeaderFragment ++ it.take head.payloadSize)

/-- Valid settings whose change fits the window of every stream, and whose acknowledgement is
written. -/
def RegularSettings : Prop :=
  head.streamId = 0 ∧
    if head.has flagsAck then
      head.payloadSize = 0
    else
      head.payloadSize % 6 = 0 ∧ (∀ i < head.payloadSize / 6, ValidPair (it.drop (6 * i))) ∧
        (windowDiff ctx (ctx.settingsParsed (ctx.readSettings head it)) = 0 ∨
          ∀ sctx ∈ ctx.pendingStreams.values, AddsWindowSize sctx.remoteWindowLeft
            (windowDiff ctx (ctx.settingsParsed (ctx.readSettings head it)))) ∧
        env.writable ctx.acks = true

/-- A WINDOW_UPDATE frame with a positive increment that fits the window. -/
def RegularWindowUpdate : Prop :=
  head.payloadSize = 4 ∧ 0 < loadUint 4 it ∧ loadUint 4 it < 2 ^ 31 ∧
    if head.streamId = 0 then
      AddsWindowSize ctx.remoteWindowLeft (loadUint 4 it)
    else
      match ctx.findStream head.streamId with
      | none => True
      | some sctx => AddsWindowSize sctx.remoteWindowLeft (loadUint 4 it)

/-- The frames that are handled without an error of the connection. -/
def Regular : Prop :=
  match head.type with
  | .data => RegularData env ctx head it
  | .headers => RegularHeaders ctx head it
  | .priority | .pushPromise => False
  | .rstStream => head.payloadSize = 4
  | .settings => RegularSettings env ctx head it
  | .ping =>
    head.payloadSize = 8 ∧ head.streamId = 0 ∧
      (head.has flagsAck = true ∨ env.writable ctx.acks = true)
  | .goaway => 8 ≤ head.payloadSize ∧ head.streamId = 0 ∧ head.flags = 0
  | .windowUpdate => RegularWindowUpdate ctx head it
  | .continuation => RegularContinuation ctx head it

instance : Decidable (RegularData env ctx head it) := by
  unfold RegularData
  refine @instDecidableAnd _ _ _ ?_
  split <;> infer_instance

instance : Decidable (RegularHeaders ctx head it) :=
  inferInstanceAs (Decidable (_ ∧ _ ∧ _ ∧ _ ∧ (_ ∧ _ ∨ _)))

instance : Decidable (RegularContinuation ctx head it) := by
  unfold RegularContinuation
  split <;> infer_instance

instance : Decidable (RegularSettings env ctx head it) := by
  unfold RegularSettings
  infer_instance

instance : Decidable (RegularWindowUpdate ctx head it) := by
  unfold RegularWindowUpdate
  have : Decidable (match ctx.findStream head.streamId with
    | none => True
    | some sctx => AddsWindowSize sctx.remoteWindowLeft (loadUint 4 it)) := by
    split <;> infer_instance
  infer_instance

instance : Decidable (Regular env ctx head it) := by
  unfold Regular
  induction head.type using H2FrameType.casesOn <;> infer_instance

@[simp]
theorem isConnectionError_fail (error : H2Error) :
    (ctx.fail error it).isConnectionError = true := rfl

@[simp]
theorem isConnectionError_noMessage : (ctx.noMessage it).isConnectionError = false := rfl

@[simp]
theorem isConnectionError_message (message : Option H2StreamContext) :
    (Handled.mk (.message message) ctx it).isConnectionError = false := rfl

@[simp]
theorem isConnectionError_error (error : H2Error) (sid : Nat) :
    (Handled.mk (.error error sid) ctx it).isConnectionError = (sid == 0) := rfl

@[simp]
theorem isConnectionError_onEndStream (sid : Nat) :
    (ctx.onEndStream env sid it).isConnectionError = false := rfl

@[simp]
theorem isConnectionError_finishData : (ctx.finishData env head it).isConnectionError = false := by
  unfold finishData
  split <;> rfl

theorem accountData_regular_iff (sctx : H2StreamContext) (acc : Nat) :
    (ctx.accountData env sctx head it acc).1.isConnectionError = false ↔
      if ctx.localSettings.streamWindowSize < acc then head.streamId ≠ 0
      else ctx.localSettings.streamWindowSize / 2 ≤ acc → acc ≠ 0 →
        env.writable ctx.acks = true := by
  unfold accountData
  by_cases half : ctx.localSettings.streamWindowSize / 2 ≤ acc
  · by_cases above : ctx.localSettings.streamWindowSize < acc
    · simp [half, above]
    · by_cases nothing : acc = 0
      · rw [if_pos half, if_neg above, if_pos nothing, if_neg above]
        simp [nothing]
      · cases wrote : env.writable ctx.acks <;> simp [half, above, nothing]
  · have below : ¬ ctx.localSettings.streamWindowSize < acc := by omega
    simp [half, below]

theorem streamOnData_regular_iff (bodyRefused : Option Nat) (sctx : H2StreamContext)
    (frag padLength : Nat) :
    (ctx.streamOnData env bodyRefused sctx head frag padLength it).1.isConnectionError =
        false ↔
      (bodyRefused = none ∨ it.take frag = []) ∧
        if ctx.localSettings.streamWindowSize < sctx.deferredWindowUpdate + frag then
          head.streamId ≠ 0
        else
          ctx.localSettings.streamWindowSize / 2 ≤ sctx.deferredWindowUpdate + frag →
            sctx.deferredWindowUpdate + frag ≠ 0 → env.writable ctx.acks = true := by
  cases bodyRefused with
  | none =>
    rw [and_iff_right (.inl rfl)]
    exact accountData_regular_iff ..
  | some taken =>
    simp only [streamOnData, reduceCtorEq, false_or]
    split
    · next nothing =>
      rw [and_iff_right nothing]
      exact accountData_regular_iff ..
    · next something => simp [something]

theorem onData_regular_iff :
    (ctx.onData env head it).isConnectionError = false ↔ RegularData env ctx head it := by
  unfold onData RegularData
  by_cases short : dataSize head < padLength head it
  · simp [short]
  · rw [if_neg short, and_iff_right (not_lt.mp short)]
    cases ctx.findStream head.streamId with
    | none => simp
    | some sctx => exact streamOnData_regular_iff ..

theorem onPing_regular_iff : (ctx.onPing env head it).isConnectionError = false ↔
      head.payloadSize = 8 ∧ head.streamId = 0 ∧
        (head.has flagsAck = true ∨ env.writable ctx.acks = true) := by
  unfold onPing
  repeat' split
  all_goals simp_all

theorem onGoAway_regular_iff : (ctx.onGoAway head it).isConnectionError = false ↔
      8 ≤ head.payloadSize ∧ head.streamId = 0 ∧ head.flags = 0 := by
  unfold onGoAway
  repeat' split
  all_goals simp_all

theorem onResetStream_regular_iff :
    (ctx.onResetStream env head it).isConnectionError = false ↔ head.payloadSize = 4 := by
  unfold onResetStream
  repeat' split
  all_goals simp_all

theorem onWindowUpdate_regular_iff :
    (ctx.onWindowUpdate head it).isConnectionError = false ↔ RegularWindowUpdate ctx head it := by
  unfold onWindowUpdate RegularWindowUpdate
  by_cases four : head.payloadSize = 4
  · by_cases invalid : 2 ^ 31 ≤ loadUint 4 it ∨ loadUint 4 it = 0
    · rw [if_neg (not_not.mpr four), if_pos invalid]
      constructor
      · intro impossible
        simp at impossible
      · rintro ⟨-, pos, small, -⟩
        omega
    · have pos : 0 < loadUint 4 it := by omega
      have small : loadUint 4 it < 2 ^ 31 := by omega
      rw [if_neg (not_not.mpr four), if_neg invalid]
      simp only [four, pos, small, true_and]
      split
      · split <;> simp_all
      · cases ctx.findStream head.streamId with
        | none => simp
        | some sctx =>
          simp only
          split <;> simp_all
  · simp [four]

theorem ok_readSettings_iff : (ctx.readSettings head it).ok = true ↔
      head.payloadSize % 6 = 0 ∧ ∀ i < head.payloadSize / 6, ValidPair (it.drop (6 * i)) := by
  unfold readSettings parseH2Settings
  by_cases pairs : head.payloadSize % 6 = 0
  · rw [if_neg (by omega), ok_parsePairs_iff]
    simp [pairs]
  · rw [if_pos (by omega)]
    simp [pairs]

theorem applySettings_regular_iff (diff : Int) :
    (ctx.applySettings env diff it).isConnectionError = false ↔
      (diff = 0 ∨ ∀ sctx ∈ ctx.pendingStreams.values, AddsWindowSize sctx.remoteWindowLeft diff) ∧
        env.writable ctx.acks = true := by
  unfold applySettings
  repeat' split
  all_goals simp_all

theorem acks_settingsParsed (parsed : ParsedSettings) :
    (ctx.settingsParsed parsed).acks = ctx.acks ∧
      (ctx.settingsParsed parsed).pendingStreams = ctx.pendingStreams := by
  unfold settingsParsed
  split <;> exact ⟨rfl, rfl⟩

theorem onSettings_regular_iff :
    (ctx.onSettings env head it).isConnectionError = false ↔ RegularSettings env ctx head it := by
  have ok_iff := ok_readSettings_iff ctx head it
  have kept := acks_settingsParsed ctx (ctx.readSettings head it)
  unfold onSettings RegularSettings
  by_cases conn : head.streamId = 0
  · rw [if_neg (not_not.mpr conn)]
    simp only [conn, true_and]
    split
    · split <;> simp_all
    · split
      · next ok =>
        obtain ⟨pairs, valid⟩ := ok_iff.mp ok
        rw [applySettings_regular_iff, kept.1, kept.2]
        simp only [pairs, true_and]
        exact ⟨fun fits => ⟨valid, fits⟩, And.right⟩
      · next failed =>
        have invalid := mt ok_iff.mpr failed
        constructor
        · intro regular
          split at regular <;> simp at regular
        · rintro ⟨pairs, valid, -⟩
          exact absurd ⟨pairs, valid⟩ invalid
  · simp [conn]

end Errors

/-- What a stream makes of a piece of a header block that was consumed. -/
inductive Took (env : Environment) (ctx : H2Context) (sctx : H2StreamContext)
    (head : H2FrameHead) (c : HPacker.Consumed) : Handled → Prop where
  | failed (after : H2StreamContext) (it : List UInt8) (failed : c.ok = false)
      (headers_eq : after.headers = sctx.headers ++ c.headers) :
      Took env ctx sctx head c
        ((update { ctx with hpacker := c.packer } head.streamId after).fail .protocolError it)
  | goesOn (after : H2StreamContext) (it : List UInt8) (ok : c.ok = true)
      (headers_eq : after.headers = sctx.headers ++ c.headers)
      (kept : sctx.remainingHeaderFragment = [] → after.remainingHeaderFragment = []) :
      Took env ctx sctx head c
        ((update { ctx with hpacker := c.packer } head.streamId after).noMessage it)
  | ended (after : H2StreamContext) (it : List UInt8) (ok : c.ok = true)
      (headers_eq : after.headers = sctx.headers ++ c.headers)
      (endHeaders : head.has flagsEndHeaders = true) :
      Took env ctx sctx head c
        ((update { ctx with hpacker := c.packer } head.streamId after).onEndStream env
          head.streamId it)

/-- A stream takes a piece of a header block. -/
def TakesPiece (env : Environment) (ctx : H2Context) (sctx : H2StreamContext)
    (head : H2FrameHead) (piece : List UInt8) (run : Option Handled) : Prop :=
  ∃ out : HPacker.Consumed → Handled, run = (consumeHeaders ctx.hpacker piece).map out ∧
    ∀ c, consumeHeaders ctx.hpacker piece = some c → Took env ctx sctx head c (out c)

/-- A piece of a header block gets to a stream.  What a temporary one reports is not looked at. -/
def Delivers (env : Environment) (ctx : H2Context) (head : H2FrameHead) (piece : List UInt8)
    (stream : Option H2StreamContext) (run : Option Handled) : Prop :=
  match stream with
  | some sctx => TakesPiece env ctx sctx head piece run
  | none => ∃ (sctx : H2StreamContext) (report : Option Handled),
      TakesPiece env ctx sctx head piece report ∧ run = report.map fun h => h.ctx.noMessage h.it

section Pieces

variable {env : Environment} {ctx : H2Context} {head : H2FrameHead} {it piece : List UInt8}
  {sctx : H2StreamContext} {stream : Option H2StreamContext} {h : Handled}

theorem takesPiece_streamOnHeaders {frag padLength : Nat} :
    TakesPiece env ctx sctx head (it.take frag)
      (ctx.streamOnHeaders env sctx head frag padLength it) := by
  refine ⟨_, rfl, fun c used => ?_⟩
  split
  · next ok =>
    rw [bytesLeft_of_consume _ _ (le_refl _) used ok]
    have kept : sctx.remainingHeaderFragment = [] → sctx.remainingHeaderFragment ++ [] = [] :=
      fun nothing => by rw [nothing, List.nil_append]
    unfold finishHeaders
    split
    · next ends =>
      rw [if_neg (not_not.mpr rfl)]
      split
      · exact .ended _ _ ok rfl ends
      · exact .goesOn _ _ ok rfl kept
    · exact .goesOn _ _ ok rfl kept
  · next failed => exact .failed _ _ (eq_false_of_ne_true failed) rfl

theorem takesPiece_streamOnContinuation :
    TakesPiece env ctx sctx head (sctx.remainingHeaderFragment ++ it.take head.payloadSize)
      (ctx.streamOnContinuation env sctx head it) := by
  refine ⟨_, rfl, fun c used => ?_⟩
  split
  · next ok =>
    rw [bytesLeft_of_consume _ _ (le_refl _) used ok]
    unfold finishContinuation
    split
    · next ends =>
      rw [if_neg (not_not.mpr rfl)]
      split
      · exact .ended _ _ ok rfl ends
      · exact .goesOn _ _ ok rfl fun _ => rfl
    · exact .goesOn _ _ ok rfl fun _ => rfl
  · next failed => exact .failed _ _ (eq_false_of_ne_true failed) rfl

theorem delivers_enterHeaders {frag padLength : Nat} :
    Delivers env ctx head (it.take frag) stream
      (enterHeaders env ctx stream head frag padLength it) := by
  cases stream with
  | some sctx => exact takesPiece_streamOnHeaders
  | none => exact ⟨_, _, takesPiece_streamOnHeaders, rfl⟩

theorem delivers_of_entered {frag padLength : Nat}
    (entered : enterHeaders env ctx stream head frag padLength it = some h) :
    Delivers env ctx head (it.take frag) stream (some h) :=
  entered ▸ delivers_enterHeaders

theorem delivers_onContinuation (found : ctx.findStream head.streamId = stream)
    (known : stream = none → ctx.clientSide = true) :
    Delivers env ctx head
      ((stream.map H2StreamContext.remainingHeaderFragment).getD [] ++ it.take head.payloadSize)
      stream (ctx.onContinuation env head it) := by
  unfold onContinuation
  cases stream with
  | some sctx =>
    rw [found]
    exact takesPiece_streamOnContinuation
  | none =>
    rw [found]
    simp only [known rfl, if_true]
    exact ⟨_, _, takesPiece_streamOnContinuation, rfl⟩

theorem TakesPiece.exists_took (takes : TakesPiece env ctx sctx head piece (some h)) :
    ∃ c, consumeHeaders ctx.hpacker piece = some c ∧ Took env ctx sctx head c h := by
  obtain ⟨out, run_eq, took⟩ := takes
  obtain ⟨c, used, rfl⟩ := map_eq_some_iff.mp run_eq.symm
  exact ⟨c, used, took c used⟩

theorem TakesPiece.regular_iff (takes : TakesPiece env ctx sctx head piece (some h)) :
    h.isConnectionError = false ↔ Decodes ctx.hpacker piece := by
  obtain ⟨c, used, took⟩ := takes.exists_took
  rw [Decodes, used]
  cases took with
  | failed after it failed => simp [failed]
  | goesOn after it ok => simp [ok]
  | ended after it ok => simp [ok]

theorem Delivers.regular_iff (sends : Delivers env ctx head piece stream (some h)) :
    h.isConnectionError = false ↔ stream = none ∨ Decodes ctx.hpacker piece := by
  cases stream with
  | some sctx =>
    rw [TakesPiece.regular_iff sends]
    simp
  | none =>
    obtain ⟨sctx, report, -, run_eq⟩ := sends
    obtain ⟨h', -, rfl⟩ := map_eq_some_iff.mp run_eq.symm
    simp

theorem onHeaders_regular_iff (handled : ctx.onHeaders env head it = some h) :
    h.isConnectionError = false ↔ RegularHeaders ctx head it := by
  unfold RegularHeaders
  rcases onHeaders_cases handled with ⟨early, error, rfl⟩ | ⟨⟨stream, room⟩,
    ⟨late, ctx', error, -, rfl⟩ | ⟨⟨padded, admitted⟩, ctx', entry, enters, entered⟩⟩
  · refine iff_of_false (by simp) ?_
    rintro ⟨stream, room, -⟩
    omega
  · refine iff_of_false (by simp) ?_
    rintro ⟨-, -, padded, admitted, -⟩
    exact late.elim (not_lt.mpr padded) fun refused => refused admitted
  · rw [(delivers_of_entered entered).regular_iff, enters.ignored_iff, enters.hpacker_eq]
    simp [stream, room, padded, admitted]

theorem onContinuation_regular_iff (handled : ctx.onContinuation env head it = some h) :
    h.isConnectionError = false ↔ RegularContinuation ctx head it := by
  unfold RegularContinuation
  cases found : ctx.findStream head.streamId with
  | some sctx =>
    have delivers := @delivers_onContinuation env ctx head it _ found (by simp)
    rw [handled] at delivers
    exact TakesPiece.regular_iff delivers
  | none =>
    unfold onContinuation at handled
    rw [found] at handled
    simp only at handled
    split at handled
    · next client =>
      obtain ⟨h', -, rfl⟩ := map_eq_some_iff.mp handled
      simp [client]
    · next server =>
      obtain rfl := some.inj handled
      simp [server]

theorem handle_regular_iff (handled : ctx.handle env head it = some h) :
    h.isConnectionError = false ↔ Regular env ctx head it := by
  unfold handle at handled
  unfold Regular
  cases type : head.type <;> rw [type] at handled
  case headers => exact onHeaders_regular_iff handled
  case continuation => exact onContinuation_regular_iff handled
  all_goals obtain rfl := some.inj handled
  case data => exact onData_regular_iff env ctx head it
  case priority | pushPromise => simp [onUnsupported]
  case rstStream => exact onResetStream_regular_iff env ctx head it
  case settings => exact onSettings_regular_iff env ctx head it
  case ping => exact onPing_regular_iff env ctx head it
  case goaway => exact onGoAway_regular_iff ctx head it
  case windowUpdate => exact onWindowUpdate_regular_iff ctx head it

end Pieces

def Unanswered (ctx : H2Context) : Prop := ∀ frame ∈ ctx.written, frame.head.type ≠ .goaway

instance (ctx : H2Context) : Decidable (Unanswered ctx) :=
  inferInstanceAs (Decidable (∀ frame ∈ ctx.written, frame.head.type ≠ .goaway))

variable {env : Environment} {ctx : H2Context} {head : H2FrameHead} {it : List UInt8}

section

variable (before : Unanswered ctx)
include before

theorem unanswered_writeAck {frames : List Frame}
    (others : ∀ frame ∈ frames, frame.head.type ≠ .goaway) :
    Unanswered (ctx.writeAck env frames) := by
  intro frame mem
  simp only [writeAck] at mem
  split at mem
  · rcases List.mem_append.mp mem with old | new
    · exact before frame old
    · exact others frame new
  · exact before frame mem

theorem unanswered_deferWindowUpdate (size : Nat) :
    Unanswered (ctx.deferWindowUpdate env size) := by
  unfold deferWindowUpdate
  split
  · exact before
  · split
    · exact @unanswered_writeAck env { ctx with deferredWindowUpdate := 0 } before _
        (by simp [windowUpdateFrame])
    · exact before

theorem unanswered_update (sid : Nat) (sctx : H2StreamContext) :
    Unanswered (ctx.update sid sctx) := by
  unfold update
  split <;> exact before

theorem unanswered_removeStreamAndDeferWU (sid : Nat) :
    Unanswered (ctx.removeStreamAndDeferWU env sid) := by
  unfold removeStreamAndDeferWU
  split
  · exact before
  · next sctx _ =>
    exact @unanswered_deferWindowUpdate env
      { ctx with pendingStreams := ctx.pendingStreams.erase sid } before _

theorem unanswered_finishData : Unanswered (ctx.finishData env head it).ctx := by
  unfold finishData
  split
  · exact unanswered_removeStreamAndDeferWU before _
  · exact before

theorem unanswered_accountData (sctx : H2StreamContext) (acc : Nat) :
    Unanswered (ctx.accountData env sctx head it acc).1.ctx := by
  have wrote (sctx : H2StreamContext) (increment total : Nat) :
      Unanswered (writeAck env { ctx.update head.streamId sctx with deferredWindowUpdate := 0 }
        [windowUpdateFrame head.streamId increment, windowUpdateFrame 0 total]) :=
    @unanswered_writeAck env { ctx.update head.streamId sctx with deferredWindowUpdate := 0 }
      (unanswered_update before head.streamId sctx) _ (by simp [windowUpdateFrame])
  unfold accountData
  repeat' split
  · exact unanswered_update before _ _
  · exact unanswered_finishData (unanswered_update before _ _)
  · exact unanswered_finishData (wrote _ _ _)
  · exact wrote _ _ _
  · exact unanswered_finishData (unanswered_update before _ _)

theorem unanswered_streamOnData (bodyRefused : Option Nat)
    (sctx : H2StreamContext) (frag padLength : Nat) :
    Unanswered (ctx.streamOnData env bodyRefused sctx head frag padLength it).1.ctx := by
  unfold streamOnData
  repeat' split
  · exact unanswered_accountData before _ _
  · exact unanswered_update before _ _
  · exact unanswered_accountData before _ _

theorem unanswered_onData : Unanswered (ctx.onData env head it).ctx := by
  unfold onData
  repeat' split
  · exact before
  · exact unanswered_deferWindowUpdate (unanswered_streamOnData before _ _ _ _) _
  · exact unanswered_streamOnData before _ _ _ _

end

theorem TakesPiece.unanswered {sctx : H2StreamContext} {piece : List UInt8} {h : Handled}
    (takes : TakesPiece env ctx sctx head piece (some h)) (before : Unanswered ctx) :
    Unanswered h.ctx := by
  obtain ⟨c, -, took⟩ := takes.exists_took
  have updated (after : H2StreamContext) :
      Unanswered (update { ctx with hpacker := c.packer } head.streamId after) :=
    @unanswered_update { ctx with hpacker := c.packer } before _ _
  cases took with
  | failed after => exact updated after
  | goesOn after => exact updated after
  | ended after => exact unanswered_removeStreamAndDeferWU (updated after) _

theorem Delivers.unanswered {stream : Option H2StreamContext} {piece : List UInt8} {h : Handled}
    (sends : Delivers env ctx head piece stream (some h)) (before : Unanswered ctx) :
    Unanswered h.ctx := by
  cases stream with
  | some sctx => exact TakesPiece.unanswered sends before
  | none =>
    obtain ⟨sctx, report, takes, run_eq⟩ := sends
    obtain ⟨h', rfl, rfl⟩ := map_eq_some_iff.mp run_eq.symm
    exact (takes.unanswered before : Unanswered h'.ctx)

section

variable (before : Unanswered ctx)
include before

theorem unanswered_onHeaders {h : Handled}
    (handled : ctx.onHeaders env head it = some h) : Unanswered h.ctx := by
  rcases onHeaders_cases handled with ⟨-, error, rfl⟩ | ⟨-, ⟨-, ctx', error, written_eq, rfl⟩ |
    ⟨-, ctx', entry, enters, entered⟩⟩
  · exact before
  · rwa [fail, Unanswered, written_eq]
  · exact (delivers_of_entered entered).unanswered (by rwa [Unanswered, enters.written_eq])

theorem unanswered_onContinuation {h : Handled}
    (handled : ctx.onContinuation env head it = some h) : Unanswered h.ctx := by
  by_cases unknown : ctx.findStream head.streamId = none ∧ ctx.clientSide = false
  · simp only [onContinuation, unknown.1, unknown.2] at handled
    obtain rfl := some.inj handled
    exact before
  · have delivers := @delivers_onContinuation env ctx head it _ rfl fun missing => by
      simpa [missing] using unknown
    rw [handled] at delivers
    exact delivers.unanswered before

theorem unanswered_onResetStream : Unanswered (ctx.onResetStream env head it).ctx := by
  unfold onResetStream
  repeat' split
  · exact before
  · exact before
  · exact unanswered_removeStreamAndDeferWU before _
  · exact unanswered_removeStreamAndDeferWU before _

theorem unanswered_applySettings (diff : Int) : Unanswered (ctx.applySettings env diff it).ctx := by
  have wrote (pending : KeyedMap Nat H2StreamContext) :
      Unanswered (writeAck env { ctx with pendingStreams := pending } [applySettings.ack]) :=
    @unanswered_writeAck env { ctx with pendingStreams := pending } before _
      (by simp [applySettings.ack])
  unfold applySettings
  repeat' split
  · exact wrote _
  · exact wrote _
  · exact before

theorem unanswered_onSettings : Unanswered (ctx.onSettings env head it).ctx := by
  have parsed (settings : ParsedSettings) : Unanswered (ctx.settingsParsed settings) := by
    unfold settingsParsed
    split <;> exact before
  unfold onSettings
  repeat' split
  all_goals first
    | exact before
    | exact unanswered_applySettings (parsed _) _

theorem unanswered_onPing : Unanswered (ctx.onPing env head it).ctx := by
  have wrote : Unanswered (writeAck env ctx [⟨⟨8, .ping, flagsAck, 0⟩, it.take 8⟩]) :=
    unanswered_writeAck before (by simp)
  unfold onPing
  repeat' split
  all_goals first
    | exact before
    | exact wrote

theorem unanswered_removeGoAwayStreams (goawayStreamId : Int) :
    Unanswered (ctx.removeGoAwayStreams goawayStreamId) := before

theorem unanswered_onGoAway : Unanswered (ctx.onGoAway head it).ctx := by
  unfold onGoAway
  repeat' split
  · exact before
  · exact before
  · exact before
  · exact unanswered_removeGoAwayStreams before (lastStreamId head it)
  · exact before

theorem unanswered_onWindowUpdate : Unanswered (ctx.onWindowUpdate head it).ctx := by
  unfold onWindowUpdate
  repeat' split
  all_goals first
    | exact before
    | exact unanswered_update before _ _

theorem unanswered_handle (handled : ctx.handle env head it = some h) : Unanswered h.ctx := by
  unfold handle at handled
  split at handled
  case h_2 => exact unanswered_onHeaders before handled
  case h_10 => exact unanswered_onContinuation before handled
  all_goals obtain rfl := some.inj handled
  · exact unanswered_onData before
  · exact before
  · exact unanswered_onResetStream before
  · exact unanswered_onSettings before
  · exact before
  · exact unanswered_onPing before
  · exact unanswered_onGoAway before
  · exact unanswered_onWindowUpdate before

end

theorem unanswered_answer (before : Unanswered h.ctx) (regular : h.isConnectionError = false)
    : Unanswered (answer env h).ctx := by
  unfold answer
  unfold Handled.isConnectionError at regular
  split
  · exact before
  · next error sid result_eq =>
    rw [result_eq] at regular
    have stream : sid ≠ 0 := by simpa using regular
    split
    · exact unanswered_removeStreamAndDeferWU
        (unanswered_writeAck before (by simp [rstStreamFrame])) _
    · exact unanswered_writeAck before (by simp)

end McBrpc.Http2
