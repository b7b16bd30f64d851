import McBrpc.Policy.Http2Context

/-!
# Where a frame handler leaves the iterator

The next frame head is read where the handler of a frame stopped.  `Legible` says which frames are
read to their end, field by field; a frame that is refused early is not, unless there is nothing
left of it.
-/

namespace McBrpc.Http2

open Hpack H2Context List Option Nat

theorem sub32_eq {a b : Nat} (inside : b ≤ a) (small : a < 2 ^ 32) : sub32 a b = a - b := by
  unfold sub32
  omega

theorem lt_sub32 {a b : Nat} (wraps : a < b) (small : b < 2 ^ 32) : a < sub32 a b := by
  unfold sub32
  omega

theorem drop_eq_drop_iff {α : Type*} {m n : Nat} {it : List α} (left : m ≤ it.length)
    (right : n ≤ it.length) : it.drop m = it.drop n ↔ m = n := by
  constructor
  · intro same
    have lengths := congrArg List.length same
    rw [length_drop, length_drop] at lengths
    omega
  · rintro rfl
    rfl

section Handlers

variable (env : Environment) (ctx : H2Context) (head : H2FrameHead) (it : List UInt8)

/-- The lengths that a handler computes from the frame head by subtraction. -/
def fragmentLengths : List Nat :=
  match head.type with
  | .data =>
    dataSize head :: if dataSize head < padLength head it then []
      else [sub32 (dataSize head) (padLength head it)]
  | .headers =>
    if head.streamId = 0 ∨ head.payloadSize < headersExtra head then []
    else
      headersSize head :: if headersSize head < padLength head it then []
        else [sub32 (headersSize head) (padLength head it)]
  | .goaway =>
    if 8 ≤ head.payloadSize ∧ head.streamId = 0 ∧ head.flags = 0 then
      [sub32 head.payloadSize 8]
    else []
  | _ => []

/-- No length is above that of the payload it is a part of. -/
def NoWrap : Prop :=
  ∀ length ∈ fragmentLengths head it, length ≤ head.payloadSize

instance : Decidable (NoWrap head it) :=
  inferInstanceAs (Decidable (∀ length ∈ fragmentLengths head it, length ≤ head.payloadSize))

/-- The connection knows the stream of a HEADERS frame, or may open it, or may ignore it. -/
def Admitted (streamId : Nat) : Prop :=
  if ctx.clientSide = false ∧ ctx.lastReceivedStreamId < streamId then
    streamId % 2 ≠ 0 ∧ ¬ (0 ≤ ctx.goawayStreamId ∧ ctx.goawayStreamId < streamId) ∧
      ctx.findStream streamId = none
  else
    ctx.clientSide = true ∨ ctx.findStream streamId ≠ none

instance (streamId : Nat) : Decidable (Admitted ctx streamId) := by
  unfold Admitted
  infer_instance

def headerFragment : List UInt8 :=
  (it.drop (headersExtra head)).take
    (head.payloadSize - headersExtra head - padLength head it)

/-- A HEADERS frame whose fields fit into its payload and whose fragment can be decoded for a
stream that may have it. -/
def LegibleHeaders : Prop :=
  head.streamId ≠ 0 ∧ headersExtra head ≤ head.payloadSize ∧
    (head.payloadSize = headersExtra head ∨
      padLength head it ≤ head.payloadSize - headersExtra head ∧
        Admitted ctx head.streamId ∧ Decodes ctx.hpacker (headerFragment head it))

instance : Decidable (LegibleHeaders ctx head it) :=
  inferInstanceAs (Decidable (_ ∧ _ ∧ (_ ∨ _ ∧ _ ∧ _)))

/-- The frames that are read to their end. -/
def Legible : Prop :=
  match head.type with
  | .data =>
    head.has flagsPadded = true →
      head.payloadSize = 1 ∨ 1 + loadUint 1 it ≤ head.payloadSize
  | .headers => head.payloadSize = 0 ∨ LegibleHeaders ctx head it
  | .priority | .pushPromise => head.payloadSize = 0
  | .rstStream | .windowUpdate => head.payloadSize = 0 ∨ head.payloadSize = 4
  | .settings =>
    head.payloadSize = 0 ∨
      head.streamId = 0 ∧ head.has flagsAck = false ∧ head.payloadSize % 6 = 0 ∧
        ∀ i < head.payloadSize / 6 - 1, ValidPair (it.drop (6 * i))
  | .ping =>
    head.payloadSize = 0 ∨
      head.payloadSize = 8 ∧ head.streamId = 0 ∧ head.has flagsAck = false
  | .goaway =>
    head.payloadSize = 0 ∨ 8 ≤ head.payloadSize ∧ head.streamId = 0 ∧ head.flags = 0
  | .continuation =>
    head.payloadSize = 0 ∨ ctx.clientSide = true ∨ ctx.findStream head.streamId ≠ none

instance : Decidable (Legible ctx head it) := by
  unfold Legible
  split <;> infer_instance

@[simp]
theorem it_fail (error : H2Error) : (ctx.fail error it).it = it := rfl

@[simp]
theorem it_noMessage : (ctx.noMessage it).it = it := rfl

@[simp]
theorem it_onEndStream (sid : Nat) : (ctx.onEndStream env sid it).it = it := rfl

@[simp]
theorem it_finishData : (ctx.finishData env head it).it = it := by
  unfold finishData
  split <;> rfl

@[simp]
theorem it_accountData (sctx : H2StreamContext) (acc : Nat) :
    (ctx.accountData env sctx head it acc).1.it = it := by
  unfold accountData
  repeat' split
  all_goals simp

@[simp]
theorem it_streamOnData (bodyRefused : Option Nat) (sctx : H2StreamContext)
    (frag padLength : Nat) :
    (ctx.streamOnData env bodyRefused sctx head frag padLength it).1.it =
      it.drop (frag + padLength) := by
  unfold streamOnData
  repeat' split
  all_goals simp [drop_drop]

theorem it_onData : (ctx.onData env head it).it =
      it.drop (if dataSize head < padLength head it then dataExtra head
        else dataExtra head + (sub32 (dataSize head) (padLength head it) + padLength head it)) := by
  unfold onData
  split
  · rfl
  · split <;> simp [drop_drop]

@[simp]
theorem it_finishHeaders (sctx : H2StreamContext) (bytesLeft : List UInt8) :
    (ctx.finishHeaders env sctx head bytesLeft it).it = it := by
  unfold finishHeaders
  repeat' split
  all_goals simp

@[simp]
theorem it_finishContinuation (sctx : H2StreamContext) (bytesLeft : List UInt8) :
    (ctx.finishContinuation env sctx head bytesLeft it).it = it := by
  unfold finishContinuation
  repeat' split
  all_goals simp

variable {env ctx head it} {h : Handled}

theorem it_streamOnHeaders {sctx : H2StreamContext} {frag padLength : Nat}
    (handled : ctx.streamOnHeaders env sctx head frag padLength it = some h) :
    h.it = it.drop
      (if Decodes ctx.hpacker (it.take frag) then frag + padLength else 0) := by
  unfold streamOnHeaders at handled
  obtain ⟨c, used, rfl⟩ := map_eq_some_iff.mp handled
  have decodes : Decodes ctx.hpacker (it.take frag) ↔ c.ok = true := by
    rw [Decodes, used]
    rfl
  split
  · next ok => simp [decodes.mpr ok, drop_drop]
  · next failed => simp [mt decodes.mp failed]

/-- The context in which a client has opened a stream. -/
def opened (ctx : H2Context) (streamId : Nat) : H2Context :=
  { ctx.received streamId with
    pendingStreams := ctx.pendingStreams.insert streamId (ctx.newStream streamId) }

/-- `OnHeaders` behind the checks of the lengths. -/
def onFragment (env : Environment) (ctx : H2Context) (head : H2FrameHead)
    (fragSize padLength : Nat) (it : List UInt8) : Option Handled :=
  if ctx.clientSide = false ∧ ctx.lastReceivedStreamId < head.streamId then
    ctx.onNewStream env head fragSize padLength it
  else
    match ctx.findStream head.streamId with
    | some sctx => ctx.streamOnHeaders env sctx head fragSize padLength it
    | none =>
      if ctx.clientSide then
        (ctx.streamOnHeaders env (ctx.newStream head.streamId) head fragSize padLength it).map
          fun h => h.ctx.noMessage h.it
      else
        some (ctx.fail .protocolError it)

/-- A stream gets a fragment in a HEADERS frame.  There is a temporary one if there is no other. -/
def enterHeaders (env : Environment) (ctx : H2Context) (stream : Option H2StreamContext)
    (head : H2FrameHead) (fragSize padLength : Nat) (it : List UInt8) : Option Handled :=
  match stream with
  | some sctx => ctx.streamOnHeaders env sctx head fragSize padLength it
  | none =>
    (ctx.streamOnHeaders env (ctx.newStream head.streamId) head fragSize padLength it).map
      fun h => h.ctx.noMessage h.it

/-- The context and the stream that get the fragments of HEADERS frames. -/
structure Enters (env : Environment) (ctx : H2Context) (streamId : Nat) (ctx' : H2Context)
    (stream : Option H2StreamContext) : Prop where
  hpacker_eq : ctx'.hpacker = ctx.hpacker
  written_eq : ctx'.written = ctx.written
  clientSide_eq : ctx'.clientSide = ctx.clientSide
  found : ctx'.findStream streamId = stream
  ignored_iff : stream = none ↔ ctx.clientSide = true ∧ ctx.findStream streamId = none
  kept : ∀ sctx ∈ stream, ctx.findStream streamId = some sctx ∨ sctx.remainingHeaderFragment = []
  entered : ∀ (head : H2FrameHead) (fragSize padLength : Nat) (it : List UInt8),
    head.streamId = streamId → onFragment env ctx head fragSize padLength it =
      enterHeaders env ctx' stream head fragSize padLength it

theorem tryToInsertStream_received (ctx : H2Context) (sid : Nat) :
    (ctx.received sid).tryToInsertStream sid (ctx.newStream sid) =
      if 0 ≤ ctx.goawayStreamId ∧ ctx.goawayStreamId < sid then .refused
      else if (ctx.findStream sid).isSome then .existing
      else .inserted (opened ctx sid) := rfl

theorem enters_opened {sid : Nat}
    (new : ctx.clientSide = false ∧ ctx.lastReceivedStreamId < sid) (odd : ¬ sid % 2 = 0)
    (below : ¬ (0 ≤ ctx.goawayStreamId ∧ ctx.goawayStreamId < sid))
    (missing : ctx.findStream sid = none) :
    Enters env ctx sid (opened ctx sid) (some (ctx.newStream sid)) where
  hpacker_eq := rfl
  written_eq := rfl
  clientSide_eq := rfl
  found := (KeyedMap.find?_insert ..).trans (if_pos rfl)
  ignored_iff := by simp [new.1]
  kept := by
    rintro sctx mem
    obtain rfl := some.inj mem
    exact .inr rfl
  entered := by
    rintro head frag padLength it rfl
    rw [onFragment, if_pos new, onNewStream, if_neg odd, tryToInsertStream_received, if_neg below,
      missing]
    rfl

/-- A stream context gets the fragments of HEADERS frames, whatever they are, or the frames are
refused unread. -/
theorem onFragment_cases (env : Environment) (ctx : H2Context) (sid : Nat) :
    (Admitted ctx sid ∧ ∃ (ctx' : H2Context) (stream : Option H2StreamContext),
        Enters env ctx sid ctx' stream) ∨
      ¬ Admitted ctx sid ∧ ∃ (ctx' : H2Context) (error : H2Error),
        ctx'.written = ctx.written ∧
          ∀ (head : H2FrameHead) (frag padLength : Nat) (it : List UInt8),
            head.streamId = sid →
              onFragment env ctx head frag padLength it = some (ctx'.fail error it) := by
  unfold Admitted
  by_cases new : ctx.clientSide = false ∧ ctx.lastReceivedStreamId < sid
  · rw [if_pos new]
    by_cases even : sid % 2 = 0
    · refine .inr ⟨fun admitted => admitted.1 even, ctx, .protocolError, rfl, ?_⟩
      rintro head frag padLength it rfl
      rw [onFragment, if_pos new, onNewStream, if_pos even]
    · by_cases above : 0 ≤ ctx.goawayStreamId ∧ ctx.goawayStreamId < sid
      · refine .inr ⟨fun admitted => admitted.2.1 above, ctx.received sid, .refusedStream,
          rfl, ?_⟩
        rintro head frag padLength it rfl
        rw [onFragment, if_pos new, onNewStream, if_neg even, tryToInsertStream_received,
          if_pos above]
      · cases found : ctx.findStream sid with
        | none => exact .inl ⟨⟨even, above, rfl⟩, _, _, enters_opened new even above found⟩
        | some sctx =>
          refine .inr ⟨by simp, ctx.received sid, .protocolError, rfl, ?_⟩
          rintro head frag padLength it rfl
          rw [onFragment, if_pos new, onNewStream, if_neg even, tryToInsertStream_received,
            if_neg above, found]
          rfl
  · rw [if_neg new]
    cases found : ctx.findStream sid with
    | some sctx =>
      refine .inl ⟨.inr (by simp), ctx, some sctx, rfl, rfl, rfl, found, by simp [found], ?_, ?_⟩
      · exact fun kept mem => .inl (found.trans mem)
      · rintro head frag padLength it rfl
        rw [onFragment, if_neg new, found]
        rfl
    | none =>
      cases client : ctx.clientSide with
      | true =>
        refine .inl ⟨.inl rfl, ctx, none, rfl, rfl, rfl, found, by simp [found, client], by simp,
          ?_⟩
        rintro head frag padLength it rfl
        rw [onFragment, if_neg new, found, client]
        rfl
      | false =>
        refine .inr ⟨by simp, ctx, .protocolError, rfl, ?_⟩
        rintro head frag padLength it rfl
        rw [onFragment, if_neg new, found, client]
        rfl

/-- A HEADERS frame whose lengths fit goes to a stream context if it is admitted. -/
theorem onHeaders_cases (handled : ctx.onHeaders env head it = some h) :
    ((head.streamId = 0 ∨ head.payloadSize < headersExtra head) ∧
        ∃ error : H2Error, h = ctx.fail error it) ∨
      (head.streamId ≠ 0 ∧ headersExtra head ≤ head.payloadSize) ∧
        ((headersSize head < padLength head it ∨ ¬ Admitted ctx head.streamId) ∧
            (∃ (ctx' : H2Context) (error : H2Error), ctx'.written = ctx.written ∧
              h = ctx'.fail error (it.drop (headersExtra head))) ∨
          (padLength head it ≤ headersSize head ∧ Admitted ctx head.streamId) ∧
            ∃ (ctx' : H2Context) (stream : Option H2StreamContext),
              Enters env ctx head.streamId ctx' stream ∧
                enterHeaders env ctx' stream head (sub32 (headersSize head) (padLength head it))
                  (padLength head it) (it.drop (headersExtra head)) = some h) := by
  unfold onHeaders at handled
  split at handled
  · next zero => exact .inl ⟨.inl zero, _, (some.inj handled).symm⟩
  · next stream =>
    split at handled
    · next short => exact .inl ⟨.inr short, _, (some.inj handled).symm⟩
    · next room =>
      refine .inr ⟨⟨stream, not_lt.mp room⟩, ?_⟩
      split at handled
      · next short => exact .inl ⟨.inl short, ctx, _, rfl, (some.inj handled).symm⟩
      · next fits =>
        have passed : onFragment env ctx head (sub32 (headersSize head) (padLength head it))
          (padLength head it) (it.drop (headersExtra head)) = some h := handled
        rcases onFragment_cases env ctx head.streamId with
          ⟨admitted, ctx', stream, enters⟩ | ⟨refused, ctx', error, written_eq, fails⟩
        · rw [enters.entered _ _ _ _ rfl] at passed
          exact .inr ⟨⟨not_lt.mp fits, admitted⟩, ctx', stream, enters, passed⟩
        · rw [fails _ _ _ _ rfl] at passed
          exact .inl ⟨.inr refused, ctx', error, written_eq, (some.inj passed).symm⟩

theorem it_enterHeaders {stream : Option H2StreamContext} {frag padLength : Nat}
    (handled : enterHeaders env ctx stream head frag padLength it = some h) :
    h.it = it.drop
      (if Decodes ctx.hpacker (it.take frag) then frag + padLength else 0) := by
  cases stream with
  | some sctx => exact it_streamOnHeaders handled
  | none =>
    obtain ⟨h', used, rfl⟩ := map_eq_some_iff.mp handled
    exact (it_streamOnHeaders used : h'.it = _)

theorem it_onHeaders (handled : ctx.onHeaders env head it = some h) : h.it = it.drop
      (if head.streamId = 0 ∨ head.payloadSize < headersExtra head then 0
      else if padLength head it ≤ headersSize head ∧ Admitted ctx head.streamId ∧
          Decodes ctx.hpacker ((it.drop (headersExtra head)).take
            (sub32 (headersSize head) (padLength head it))) then
        headersExtra head + (sub32 (headersSize head) (padLength head it) + padLength head it)
      else headersExtra head) := by
  rcases onHeaders_cases handled with ⟨early, error, rfl⟩ | ⟨⟨stream, room⟩, cases⟩
  · rw [if_pos early]
    rfl
  · rw [if_neg (not_or.mpr ⟨stream, not_lt.mpr room⟩)]
    rcases cases with ⟨late, ctx', error, -, rfl⟩ |
      ⟨⟨padded, admitted⟩, ctx', entry, enters, entered⟩
    · rw [if_neg fun all => late.elim (not_lt.mpr all.1) fun refused => refused all.2.1]
      rfl
    · rw [it_enterHeaders entered, enters.hpacker_eq, drop_drop]
      simp only [padded, admitted, true_and]
      split <;> rfl

theorem it_onContinuation (handled : ctx.onContinuation env head it = some h) :
    h.it = it.drop (if ctx.clientSide = true ∨ ctx.findStream head.streamId ≠ none then
      head.payloadSize else 0) := by
  have whole {ctx' : H2Context} {sctx : H2StreamContext} {h' : Handled}
      (used : ctx'.streamOnContinuation env sctx head it = some h') :
      h'.it = it.drop head.payloadSize := by
    unfold streamOnContinuation at used
    obtain ⟨c, -, rfl⟩ := map_eq_some_iff.mp used
    split <;> simp
  unfold onContinuation at handled
  split at handled
  · next found => simpa [found] using whole handled
  · next missing =>
    split at handled
    · next client =>
      obtain ⟨h', used, rfl⟩ := map_eq_some_iff.mp handled
      simpa [client] using whole used
    · next server =>
      obtain rfl := some.inj handled
      simp [server, missing]

variable (env ctx head it)

theorem it_onResetStream :
    (ctx.onResetStream env head it).it = it.drop (if head.payloadSize = 4 then 4 else 0) := by
  unfold onResetStream
  split
  · rfl
  · next four =>
    rw [if_pos (not_not.mp four)]
    repeat' split
    all_goals rfl

theorem it_onWindowUpdate :
    (ctx.onWindowUpdate head it).it = it.drop (if head.payloadSize = 4 then 4 else 0) := by
  unfold onWindowUpdate
  split
  · rfl
  · next four =>
    rw [if_pos (not_not.mp four)]
    repeat' split
    all_goals rfl

theorem it_onPing : (ctx.onPing env head it).it = it.drop
      (if head.payloadSize = 8 ∧ head.streamId = 0 ∧ head.has flagsAck = false then 8 else 0) := by
  unfold onPing
  repeat' split
  all_goals simp_all

theorem it_onGoAway : (ctx.onGoAway head it).it = it.drop
      (if 8 ≤ head.payloadSize ∧ head.streamId = 0 ∧ head.flags = 0 then
        sub32 head.payloadSize 8 + 8 else 0) := by
  unfold onGoAway
  repeat' split
  all_goals simp_all [drop_drop] <;> omega

@[simp]
theorem it_applySettings (diff : Int) : (ctx.applySettings env diff it).it = it := by
  unfold applySettings
  repeat' split
  all_goals rfl

theorem it_readSettings : (ctx.readSettings head it).it = it.drop
      (if head.payloadSize % 6 = 0 then 6 * pairsRead (head.payloadSize / 6) it else 0) := by
  unfold readSettings parseH2Settings
  by_cases pairs : head.payloadSize % 6 = 0
  · rw [if_pos pairs, if_neg (by omega), it_parsePairs]
  · rw [if_neg pairs, if_pos (by omega), drop_zero]

theorem it_onSettings : (ctx.onSettings env head it).it = it.drop
      (if head.streamId = 0 ∧ head.has flagsAck = false ∧ head.payloadSize % 6 = 0 then
        6 * pairsRead (head.payloadSize / 6) it else 0) := by
  have read := it_readSettings ctx head it
  unfold onSettings
  split
  · next stream => simp [stream]
  · next connection =>
    have connection := not_not.mp connection
    split
    · next ack => split <;> simp [ack]
    · next settings =>
      have settings : head.has flagsAck = false := by simpa using settings
      repeat' split
      all_goals simp_all

end Handlers

section Ends

variable {env : Environment} {ctx : H2Context} {head : H2FrameHead} {it : List UInt8}
  (present : head.payloadSize ≤ it.length) (small : head.payloadSize < 2 ^ 24)

include present small

theorem data_ends_iff : ((ctx.onData env head it).it = it.drop head.payloadSize ∧
      ∀ length ∈ dataSize head :: (if dataSize head < padLength head it then []
        else [sub32 (dataSize head) (padLength head it)]), length ≤ head.payloadSize) ↔
      (head.has flagsPadded = true →
        head.payloadSize = 1 ∨ 1 + loadUint 1 it ≤ head.payloadSize) := by
  rw [it_onData]
  cases padded : head.has flagsPadded with
  | false =>
    have size_eq : sub32 head.payloadSize 0 = head.payloadSize := sub32_eq (by omega) (by omega)
    simp [dataSize, dataExtra, padLength, padded, size_eq]
  | true =>
    have extra_eq : dataExtra head = 1 := by
      rw [dataExtra, padded]
      rfl
    have pad_eq : padLength head it = loadUint 1 it := by
      rw [padLength, padded]
      rfl
    by_cases empty : head.payloadSize = 0
    · have wraps : head.payloadSize < dataSize head := by
        rw [dataSize, extra_eq]
        exact lt_sub32 (by omega) (by decide)
      constructor
      · rintro ⟨-, bound⟩
        exact absurd (bound _ mem_cons_self) (not_le.mpr wraps)
      · intro legible
        have := legible rfl
        omega
    · have size_eq : dataSize head = head.payloadSize - 1 := by
        rw [dataSize, extra_eq]
        exact sub32_eq (by omega) (by omega)
      rw [size_eq, pad_eq, extra_eq]
      split
      · next short =>
        rw [drop_eq_drop_iff (by omega) present]
        simp
        omega
      · next fits =>
        have frag_eq : sub32 (head.payloadSize - 1) (loadUint 1 it) =
            head.payloadSize - 1 - loadUint 1 it := sub32_eq (by omega) (by omega)
        rw [frag_eq, drop_eq_drop_iff (by omega) present]
        simp
        omega

omit present in
theorem headersSize_eq (room : headersExtra head ≤ head.payloadSize) :
    headersSize head = head.payloadSize - headersExtra head := by
  unfold headersSize headersExtra at *
  have behindPad : sub32 head.payloadSize (if head.has flagsPadded = true then 1 else 0) =
      head.payloadSize - if head.has flagsPadded = true then 1 else 0 :=
    sub32_eq (by omega) (by omega)
  rw [behindPad, sub32_eq (by omega) (by omega)]
  omega

omit present in
theorem headers_noWrap :
    ∀ length ∈ (if head.streamId = 0 ∨ head.payloadSize < headersExtra head then []
      else headersSize head :: if headersSize head < padLength head it then []
        else [sub32 (headersSize head) (padLength head it)]), length ≤ head.payloadSize := by
  split
  · simp
  · next inside =>
    rw [headersSize_eq small (by omega)]
    split
    · simp
    · rw [sub32_eq (by omega) (by omega)]
      simp
      omega

theorem headers_ends_iff {h : Handled} (handled : ctx.onHeaders env head it = some h) :
    h.it = it.drop head.payloadSize ↔ head.payloadSize = 0 ∨ LegibleHeaders ctx head it := by
  rw [it_onHeaders handled]
  unfold LegibleHeaders
  by_cases early : head.streamId = 0 ∨ head.payloadSize < headersExtra head
  · have illegible : ¬ (head.streamId ≠ 0 ∧ headersExtra head ≤ head.payloadSize) := by omega
    rw [if_pos early, drop_eq_drop_iff (zero_le _) present]
    constructor
    · intro empty
      exact .inl empty.symm
    · rintro (empty | ⟨stream, room, -⟩)
      · exact empty.symm
      · exact absurd ⟨stream, room⟩ illegible
  · have stream : head.streamId ≠ 0 := fun zero => early (.inl zero)
    have room : headersExtra head ≤ head.payloadSize := by omega
    rw [if_neg early, headersSize_eq small room]
    by_cases padded : padLength head it ≤ head.payloadSize - headersExtra head
    · have frag_eq := sub32_eq padded (by omega)
      rw [frag_eq]
      simp only [padded, true_and]
      split
      · next decodes =>
        constructor
        · intro _
          exact .inr ⟨stream, room, .inr decodes⟩
        · intro _
          congr 1
          omega
      · next fails =>
        rw [drop_eq_drop_iff (by omega) present]
        constructor
        · intro same
          exact .inr ⟨stream, room, .inl same.symm⟩
        · rintro (empty | ⟨-, -, same | decodes⟩)
          · omega
          · exact same.symm
          · exact absurd decodes fails
    · rw [if_neg fun all => padded all.1, drop_eq_drop_iff (by omega) present]
      constructor
      · intro same
        exact .inr ⟨stream, room, .inl same.symm⟩
      · rintro (empty | ⟨-, -, same | ⟨fits, -⟩⟩)
        · omega
        · exact same.symm
        · exact absurd fits padded

omit small in
theorem settings_ends_iff : (ctx.onSettings env head it).it = it.drop head.payloadSize ↔
      head.payloadSize = 0 ∨
        head.streamId = 0 ∧ head.has flagsAck = false ∧ head.payloadSize % 6 = 0 ∧
          ∀ i < head.payloadSize / 6 - 1, ValidPair (it.drop (6 * i)) := by
  have bound := pairsRead_le (head.payloadSize / 6) it
  have all := pairsRead_eq_iff (head.payloadSize / 6) it
  simp only [← Nat.lt_sub_iff_add_lt] at all
  rw [it_onSettings]
  split
  · next settings =>
    rw [drop_eq_drop_iff (by omega) present, ← all]
    constructor
    · intro same
      exact .inr ⟨settings.1, settings.2.1, settings.2.2, by omega⟩
    · rintro (empty | ⟨-, -, -, full⟩) <;> omega
  · next other =>
    rw [drop_eq_drop_iff (zero_le _) present]
    constructor
    · intro empty
      exact .inl empty.symm
    · rintro (empty | ⟨conn, settings, pairs, -⟩)
      · exact empty.symm
      · exact absurd ⟨conn, settings, pairs⟩ other

theorem goaway_ends_iff : ((ctx.onGoAway head it).it = it.drop head.payloadSize ∧
      ∀ length ∈ (if 8 ≤ head.payloadSize ∧ head.streamId = 0 ∧ head.flags = 0 then
        [sub32 head.payloadSize 8] else []), length ≤ head.payloadSize) ↔
      head.payloadSize = 0 ∨ 8 ≤ head.payloadSize ∧ head.streamId = 0 ∧ head.flags = 0 := by
  rw [it_onGoAway]
  split
  · next fields =>
    rw [sub32_eq fields.1 (by omega)]
    constructor
    · intro _
      exact .inr fields
    · intro _
      refine ⟨by congr 1; omega, ?_⟩
      simp
  · next other =>
    rw [drop_eq_drop_iff (zero_le _) present]
    constructor
    · rintro ⟨empty, -⟩
      exact .inl empty.symm
    · rintro (empty | fields)
      · exact ⟨empty.symm, fun _ mem => absurd mem not_mem_nil⟩
      · exact absurd fields other

omit small in
theorem drop_ite_eq_iff {fields : Prop} [Decidable fields] {size : Nat}
    (size_eq : fields → head.payloadSize = size) :
    it.drop (if fields then size else 0) = it.drop head.payloadSize ↔
      head.payloadSize = 0 ∨ fields := by
  split
  · next holds => simp [size_eq holds, holds]
  · next fails =>
    rw [drop_eq_drop_iff (zero_le _) present]
    simp only [fails, or_false]
    exact eq_comm

end Ends

/-- A handled frame is read to its end, with no length that wraps, exactly when it is legible. -/
theorem handle_it_iff {env : Environment} {ctx : H2Context} {head : H2FrameHead}
    {it : List UInt8} {h : Handled} (present : head.payloadSize ≤ it.length)
    (small : head.payloadSize < 2 ^ 24) (handled : ctx.handle env head it = some h) :
    (h.it = it.drop head.payloadSize ∧ NoWrap head it) ↔ Legible ctx head it := by
  unfold NoWrap fragmentLengths Legible
  unfold handle at handled
  cases type : head.type <;> rw [type] at handled
  case headers =>
    rw [and_iff_left (headers_noWrap small)]
    exact headers_ends_iff present small handled
  case continuation =>
    simp only [it_onContinuation handled, not_mem_nil, false_imp_iff, implies_true, and_true]
    exact drop_ite_eq_iff present fun _ => rfl
  all_goals obtain rfl := some.inj handled
  case data => exact data_ends_iff present small
  case goaway => exact goaway_ends_iff present small
  all_goals simp
  case settings => exact settings_ends_iff present
  case priority | pushPromise =>
    simp only [onUnsupported, it_fail]
    rw [← drop_zero (l := it), drop_drop, drop_eq_drop_iff (zero_le _) (by omega)]
    omega
  case rstStream =>
    rw [it_onResetStream]
    exact drop_ite_eq_iff present id
  case ping =>
    rw [it_onPing]
    exact drop_ite_eq_iff present And.left
  case windowUpdate =>
    rw [it_onWindowUpdate]
    exact drop_ite_eq_iff present id

theorem noWrap_of_legible {ctx : H2Context} {head : H2FrameHead} {it : List UInt8}
    (present : head.payloadSize ≤ it.length) (small : head.payloadSize < 2 ^ 24)
    (legible : Legible ctx head it) : NoWrap head it := by
  unfold NoWrap fragmentLengths
  unfold Legible at legible
  cases type : head.type with
  | data =>
    rw [type] at legible
    exact ((@data_ends_iff ⟨fun _ => true, none⟩ ctx head it present small).mpr legible).2
  | headers => exact headers_noWrap small
  | goaway =>
    rw [type] at legible
    exact ((@goaway_ends_iff ctx head it present small).mpr legible).2
  | priority | rstStream | settings | pushPromise | ping | windowUpdate | continuation => simp

end McBrpc.Http2
