import McBrpc.Policy.Http2Connection

/-!
# Header blocks in HEADERS and CONTINUATION frames

Every fragment of a header block is decoded when its frame is handled.  Fragments that end where a
field representation ends lead to the headers and the table of the whole block, also for streams
that the client has given up.
-/

namespace McBrpc.Http2

open Hpack H2Context Option HPacker

/-- What a HEADERS frame holds besides its fragment. -/
structure HeadersOptions where
  endStream : Bool := false
  padding : Option (List UInt8) := none
  priority : Option (UInt8 × UInt8 × UInt8 × UInt8 × UInt8) := none
  padding_lt : ∀ bytes ∈ padding, bytes.length < 256 := by simp

namespace HeadersOptions

variable (options : HeadersOptions)

def flags (endHeaders : Bool) : UInt8 :=
  (if options.endStream then flagsEndStream else 0) |||
    (if endHeaders then flagsEndHeaders else 0) |||
    (if options.padding.isSome then flagsPadded else 0) |||
    (if options.priority.isSome then flagsPriority else 0)

def fields : List UInt8 :=
  (match options.padding with
    | some bytes => [UInt8.ofNat bytes.length]
    | none => []) ++
    match options.priority with
    | some (d0, d1, d2, d3, weight) => [d0, d1, d2, d3, weight]
    | none => []

def payload (fragment : List UInt8) : List UInt8 :=
  options.fields ++ fragment ++ options.padding.getD []

/-- A HEADERS frame with a fragment of a header block. -/
def headersFrame (streamId : Nat) (endHeaders : Bool) (fragment : List UInt8) : Frame :=
  ⟨⟨(options.payload fragment).length, .headers, options.flags endHeaders, streamId⟩,
    options.payload fragment⟩

end HeadersOptions

/-- A CONTINUATION frame with a fragment of a header block. -/
def continuationFrame (streamId : Nat) (endHeaders : Bool) (fragment : List UInt8) : Frame :=
  ⟨⟨fragment.length, .continuation, if endHeaders then flagsEndHeaders else 0, streamId⟩, fragment⟩

def blockContinuations (streamId : Nat) : List (List UInt8) → List Frame
  | [] => []
  | fragment :: fragments =>
    continuationFrame streamId fragments.isEmpty fragment :: blockContinuations streamId fragments

/-- The frames of a header block that is cut into a first fragment and later ones. -/
def blockFrames (options : HeadersOptions) (streamId : Nat) (fragment : List UInt8)
    (fragments : List (List UInt8)) : List Frame :=
  options.headersFrame streamId fragments.isEmpty fragment :: blockContinuations streamId fragments

/-- Handle frames that follow each other in front of some bytes, up to an error of the connection.
-/
def handleFrames (env : Environment) (behind : List UInt8) (handled : Handled) :
    List Frame → Option Handled
  | [] => some handled
  | frame :: frames =>
    if handled.isConnectionError then
      some handled
    else
      (handled.ctx.handle env frame.head
        (frame.payload ++ (frames.flatMap Frame.serialize ++ behind))).bind fun handled =>
          handleFrames env behind handled frames

/-- The headers that a stream has, be it pending or just returned. -/
def headersOf (streamId : Nat) (handled : Handled) : List Header :=
  match handled.result with
  | .message (some sctx) => sctx.headers
  | _ => ((handled.ctx.findStream streamId).map H2StreamContext.headers).getD []

/-- What a header block leads to: the tables, the headers of the stream and whether there was an
error of the connection. -/
def observe (streamId : Nat) (handled : Handled) : HPacker × List Header × Bool :=
  (handled.ctx.hpacker, headersOf streamId handled, handled.isConnectionError)

def handleBlock (env : Environment) (ctx : H2Context) (options : HeadersOptions) (streamId : Nat)
    (behind fragment : List UInt8) (fragments : List (List UInt8)) : Option Handled :=
  handleFrames env behind (ctx.noMessage []) (blockFrames options streamId fragment fragments)

/-- Every fragment but the last ends where a field representation or a size update ends, and its
headers are accepted. -/
def CutAtFields (p : HPacker) : List (List UInt8) → Prop
  | fragment :: next :: fragments =>
    match p.readFields acceptsHeader fragment.length fragment with
    | some (q, _) => CutAtFields q (next :: fragments)
    | none => False
  | _ => True

instance decidableCutAtFields :
    ∀ (p : HPacker) (fragments : List (List UInt8)), Decidable (CutAtFields p fragments)
  | _, [] | _, [_] => .isTrue trivial
  | p, fragment :: next :: fragments => by
    unfold CutAtFields
    split
    · exact decidableCutAtFields _ _
    · exact .isFalse id

section Context

variable (env : Environment) (ctx : H2Context)

@[simp]
theorem hpacker_update (sid : Nat) (sctx : H2StreamContext) :
    (ctx.update sid sctx).hpacker = ctx.hpacker := by
  unfold update
  split <;> rfl

@[simp]
theorem hpacker_deferWindowUpdate (size : Nat) :
    (ctx.deferWindowUpdate env size).hpacker = ctx.hpacker := by
  unfold deferWindowUpdate
  repeat' split
  all_goals rfl

@[simp]
theorem hpacker_removeStreamAndDeferWU (sid : Nat) :
    (ctx.removeStreamAndDeferWU env sid).hpacker = ctx.hpacker := by
  unfold removeStreamAndDeferWU
  split
  · rfl
  · exact hpacker_deferWindowUpdate env _ _

variable {ctx} {sid : Nat}

theorem findStream_update (sctx : H2StreamContext) (pending : (ctx.findStream sid).isSome) :
    (ctx.update sid sctx).findStream sid = some sctx := by
  unfold update
  rw [if_pos pending]
  exact (KeyedMap.find?_insert ..).trans (if_pos rfl)

theorem update_of_missing (sctx : H2StreamContext) (missing : ctx.findStream sid = none) :
    ctx.update sid sctx = ctx := by
  unfold update
  rw [missing]
  rfl

end Context

section Fields

variable (options : HeadersOptions) (sid : Nat) (endHeaders : Bool)

variable (frag : List UInt8)

theorem has_headersFrame : (options.headersFrame sid endHeaders frag).head.has flagsPadded =
        options.padding.isSome ∧
      (options.headersFrame sid endHeaders frag).head.has flagsPriority =
        options.priority.isSome ∧
      (options.headersFrame sid endHeaders frag).head.has flagsEndHeaders =
        endHeaders := by
  simp only [HeadersOptions.headersFrame, H2FrameHead.has, HeadersOptions.flags]
  cases options.endStream <;> cases endHeaders <;> cases options.padding.isSome <;>
    cases options.priority.isSome <;> decide

theorem headersExtra_headersFrame :
    headersExtra (options.headersFrame sid endHeaders frag).head =
      options.fields.length := by
  obtain ⟨padded, prioritised, -⟩ := has_headersFrame options sid endHeaders frag
  rw [headersExtra, padded, prioritised, HeadersOptions.fields]
  cases options.padding <;> cases options.priority <;> rfl

theorem padLength_headersFrame (behind : List UInt8) :
    padLength (options.headersFrame sid endHeaders frag).head
      (options.payload frag ++ behind) = (options.padding.getD []).length := by
  obtain ⟨padded, -, -⟩ := has_headersFrame options sid endHeaders frag
  rw [padLength, padded]
  have small := options.padding_lt
  unfold HeadersOptions.payload HeadersOptions.fields
  cases given : options.padding with
  | none => rfl
  | some bytes =>
    have short : bytes.length < 256 := small bytes given
    simp [loadUint, BigEndian.decode, Nat.mod_eq_of_lt short]

variable {options sid endHeaders}

theorem take_headersFrame {fragment behind : List UInt8}
    (small : (options.payload fragment).length < 2 ^ 24) :
    padLength (options.headersFrame sid endHeaders fragment).head
        (options.payload fragment ++ behind) ≤
      headersSize (options.headersFrame sid endHeaders fragment).head ∧
    ((options.payload fragment ++ behind).drop
        (headersExtra (options.headersFrame sid endHeaders fragment).head)).take
      (sub32 (headersSize (options.headersFrame sid endHeaders fragment).head)
        (padLength (options.headersFrame sid endHeaders fragment).head
          (options.payload fragment ++ behind))) = fragment := by
  have room : headersExtra (options.headersFrame sid endHeaders fragment).head ≤
      (options.headersFrame sid endHeaders fragment).head.payloadSize := by
    rw [headersExtra_headersFrame]
    simp [HeadersOptions.headersFrame, HeadersOptions.payload]
  have length_eq : (options.payload fragment).length =
      options.fields.length + (fragment.length + (options.padding.getD []).length) := by
    simp [HeadersOptions.payload]
  have size_eq : headersSize (options.headersFrame sid endHeaders fragment).head =
      fragment.length + (options.padding.getD []).length := by
    rw [headersSize_eq small room, headersExtra_headersFrame]
    simp only [HeadersOptions.headersFrame, length_eq]
    omega
  have frag_eq : sub32 (fragment.length + (options.padding.getD []).length)
      (options.padding.getD []).length = fragment.length := by
    rw [sub32_eq (by omega) (by omega)]
    omega
  rw [size_eq, padLength_headersFrame, headersExtra_headersFrame, frag_eq]
  refine ⟨by omega, ?_⟩
  simp [HeadersOptions.payload]

end Fields

/-- The context can take the fragments of a header block: for a pending stream that has nothing
kept from an earlier block, or on a client for a stream that is not pending any more. -/
structure Receiving (ctx : H2Context) (streamId : Nat) (stream : Option H2StreamContext) :
    Prop where
  found : ctx.findStream streamId = stream
  nothingKept : ∀ sctx ∈ stream, sctx.remainingHeaderFragment = []
  client : stream = none → ctx.clientSide = true

/-- What is seen of the outcome of a fragment, through the stream that gets it. -/
def view (stream : Option H2StreamContext) (outcome : HPacker × List Header × Bool) :
    HPacker × List Header × Bool :=
  match stream with
  | some sctx => (outcome.1, sctx.headers ++ outcome.2.1, !outcome.2.2)
  | none => (outcome.1, [], false)

section Fragments

variable {env : Environment} {ctx : H2Context} {head : H2FrameHead} {it piece : List UInt8}
  {sctx : H2StreamContext} {stream : Option H2StreamContext} {run : Option Handled} {h : Handled}
  {c : HPacker.Consumed}

theorem Took.observe (took : Took env ctx sctx head c h)
    (pending : (ctx.findStream head.streamId).isSome) :
    Http2.observe head.streamId h = view (some sctx) c.outcome := by
  have found (after : H2StreamContext) :
      (update { ctx with hpacker := c.packer } head.streamId after).findStream head.streamId =
        some after :=
    @findStream_update { ctx with hpacker := c.packer } head.streamId after pending
  cases took with
  | failed after it failed headers_eq =>
    simp [Http2.observe, headersOf, fail, found, Handled.isConnectionError, view,
      HPacker.Consumed.outcome, failed, headers_eq]
  | goesOn after it ok headers_eq =>
    simp [Http2.observe, headersOf, noMessage, found, Handled.isConnectionError, view,
      HPacker.Consumed.outcome, ok, headers_eq]
  | ended after it ok headers_eq =>
    simp [Http2.observe, headersOf, onEndStream, removed, found, Handled.isConnectionError, view,
      HPacker.Consumed.outcome, ok, headers_eq, H2StreamContext.released]

theorem Took.ctx_of_missing (took : Took env ctx sctx head c h)
    (missing : ctx.findStream head.streamId = none) : h.ctx = { ctx with hpacker := c.packer } := by
  have same (after : H2StreamContext) :
      update { ctx with hpacker := c.packer } head.streamId after =
        { ctx with hpacker := c.packer } :=
    @update_of_missing { ctx with hpacker := c.packer } head.streamId after missing
  have missing : H2Context.findStream { ctx with hpacker := c.packer } head.streamId = none :=
    missing
  cases took with
  | failed after => exact same after
  | goesOn after => exact same after
  | ended after => simp [same, onEndStream, removeStreamAndDeferWU, missing]

theorem Delivers.observe (sends : Delivers env ctx head piece stream run)
    (found : ctx.findStream head.streamId = stream) :
    run.map (Http2.observe head.streamId) =
      (ctx.hpacker.decodePiece acceptsHeader piece).map (view stream) := by
  unfold decodePiece
  rw [map_map]
  cases stream with
  | some sctx =>
    obtain ⟨out, rfl, took⟩ := sends
    rw [map_map]
    exact map_congr fun c used => (took c used).observe (by simp [found])
  | none =>
    obtain ⟨sctx, report, ⟨out, rfl, took⟩, rfl⟩ := sends
    rw [map_map, map_map]
    refine map_congr fun c used => ?_
    have missing : H2Context.findStream { ctx with hpacker := c.packer } head.streamId = none :=
      found
    simp [Http2.observe, headersOf, noMessage, view, Handled.isConnectionError,
      (took c used).ctx_of_missing found, missing, HPacker.Consumed.outcome]

theorem Receiving.delivers (receiving : Receiving ctx head.streamId stream) :
    Delivers env ctx head (it.take head.payloadSize) stream (ctx.onContinuation env head it) := by
  have nothing : (stream.map H2StreamContext.remainingHeaderFragment).getD [] = [] := by
    cases stream with
    | none => rfl
    | some sctx => exact receiving.nothingKept sctx rfl
  have delivers := @delivers_onContinuation env ctx head it stream receiving.found receiving.client
  rwa [nothing, List.nil_append] at delivers

/-- The context behind a fragment that ended with a field and was not the last one. -/
structure Continues (ctx : H2Context) (streamId : Nat) (stream : Option H2StreamContext)
    (q : HPacker) (headers : List Header) (h : Handled) : Prop where
  regular : h.isConnectionError = false
  hpacker_eq : h.ctx.hpacker = q
  receiving : ∃ stream', Receiving h.ctx streamId stream' ∧
    ∀ outcome, view stream' outcome = view stream (prepend headers outcome)

theorem continues_noMessage {q : HPacker} {headers : List Header}
    (receiving : Receiving ctx head.streamId (some sctx))
    {after : H2StreamContext} (headers_eq : after.headers = sctx.headers ++ headers)
    (nothingKept : after.remainingHeaderFragment = []) :
    Continues ctx head.streamId (some sctx) q headers
      ((update { ctx with hpacker := q } head.streamId after).noMessage it) := by
  have pending : (H2Context.findStream { ctx with hpacker := q } head.streamId).isSome := by
    rw [show H2Context.findStream { ctx with hpacker := q } head.streamId = some sctx from
      receiving.found]
    rfl
  refine ⟨rfl, hpacker_update _ _ _, some after, ⟨findStream_update after pending, ?_, ?_⟩, ?_⟩
  · intro kept mem
    rw [← mem_some.mp mem]
    exact nothingKept
  · intro impossible
    simp at impossible
  · intro out
    simp [view, prepend, headers_eq, List.append_assoc]

theorem Delivers.continues {q : HPacker} {headers : List Header}
    (sends : Delivers env ctx head piece stream run)
    (receiving : Receiving ctx head.streamId stream) (more : head.has flagsEndHeaders = false)
    (whole : ctx.hpacker.readFields acceptsHeader piece.length piece = some (q, headers)) :
    ∃ h, run = some h ∧ Continues ctx head.streamId stream q headers h := by
  have used : consumeHeaders ctx.hpacker piece = some ⟨q, headers, [], true⟩ :=
    consume_of_readFields whole
  cases stream with
  | some sctx =>
    obtain ⟨out, rfl, took⟩ := sends
    refine ⟨_, by rw [used]; rfl, ?_⟩
    have took := took _ used
    generalize out _ = h at took ⊢
    cases took with
    | failed after it failed => cases failed
    | goesOn after it ok headers_eq kept =>
      exact continues_noMessage receiving headers_eq (kept (receiving.nothingKept sctx rfl))
    | ended after it ok headers_eq endHeaders => simp [more] at endHeaders
  | none =>
    obtain ⟨sctx, report, ⟨out, rfl, took⟩, rfl⟩ := sends
    have ctx_eq := (took _ used).ctx_of_missing receiving.found
    refine ⟨(out ⟨q, headers, [], true⟩).ctx.noMessage _, by rw [used]; rfl, rfl,
      by rw [ctx_eq]; rfl, none, ⟨?_, by simp, fun _ => ?_⟩, fun outcome => rfl⟩
    · rw [ctx_eq]
      exact receiving.found
    · rw [ctx_eq]
      exact receiving.client rfl

end Fragments

section Blocks

variable {env : Environment} {ctx : H2Context} {sid : Nat} {stream : Option H2StreamContext}
  {run : Option Handled}

theorem take_continuationFrame (endHeaders : Bool) (fragment behind : List UInt8) :
    (fragment ++ behind).take
      (continuationFrame sid endHeaders fragment).head.payloadSize = fragment :=
  List.take_left

theorem has_continuationFrame (endHeaders : Bool) (frag : List UInt8) :
    (continuationFrame sid endHeaders frag).head.has flagsEndHeaders = endHeaders := by
  simp only [continuationFrame, H2FrameHead.has]
  cases endHeaders <;> decide

/-- A fragment and the later ones lead to what their concatenation leads to. -/
theorem observe_fragments (behind : List UInt8) {head : H2FrameHead} {frag : List UInt8}
    {frags : List (List UInt8)} (sends : Delivers env ctx head frag stream run)
    (stream_eq : head.streamId = sid)
    (endHeaders : head.has flagsEndHeaders = frags.isEmpty)
    (receiving : Receiving ctx sid stream)
    (cuts : CutAtFields ctx.hpacker (frag :: frags)) :
    (run.bind fun handled =>
        handleFrames env behind handled (blockContinuations sid frags)).map
        (observe sid) =
      (ctx.hpacker.decodePiece acceptsHeader (frag :: frags).flatten).map
        (view stream) := by
  induction frags generalizing ctx head frag stream run with
  | nil =>
    -- The last fragment may end anywhere: it is decoded from the same tables.
    subst stream_eq
    simpa [blockContinuations, handleFrames] using sends.observe receiving.found
  | cons next frags ih =>
    rw [CutAtFields] at cuts
    split at cuts
    · next q headers whole =>
      subst stream_eq
      obtain ⟨h, rfl, continues⟩ := sends.continues receiving endHeaders whole
      obtain ⟨stream', receiving', view_eq⟩ := continues.receiving
      have delivers' := @Receiving.delivers env h.ctx
        (continuationFrame head.streamId frags.isEmpty next).head
        (next ++ ((blockContinuations head.streamId frags).flatMap Frame.serialize ++ behind))
        stream' receiving'
      rw [take_continuationFrame] at delivers'
      have later := ih delivers' rfl (has_continuationFrame _ _) receiving'
        (by rw [continues.hpacker_eq]; exact cuts)
      have flatten_eq : (frag :: next :: frags).flatten =
          frag ++ (next :: frags).flatten := rfl
      rw [continues.hpacker_eq] at later
      rw [bind_some, blockContinuations, handleFrames, continues.regular, flatten_eq,
        decodePiece_append whole, map_map]
      exact later.trans (map_congr fun out _ => view_eq out)
    · exact cuts.elim

theorem handle_headersFrame {options : HeadersOptions} (stream : sid ≠ 0)
    (endHeaders : Bool) {frag : List UInt8} (behind : List UInt8)
    (small : (options.payload frag).length < 2 ^ 24) :
    ∃ (fragSize padLength : Nat) (it : List UInt8), it.take fragSize = frag ∧
      ctx.handle env (options.headersFrame sid endHeaders frag).head
          (options.payload frag ++ behind) =
        onFragment env ctx (options.headersFrame sid endHeaders frag).head fragSize
          padLength it := by
  obtain ⟨padded, fragment_eq⟩ :=
    @take_headersFrame options sid endHeaders frag behind small
  have room : ¬ (options.headersFrame sid endHeaders frag).head.payloadSize <
      headersExtra (options.headersFrame sid endHeaders frag).head := by
    rw [headersExtra_headersFrame]
    simp [HeadersOptions.headersFrame, HeadersOptions.payload]
  have stream' : ¬ (options.headersFrame sid endHeaders frag).head.streamId = 0 := stream
  refine ⟨_, padLength (options.headersFrame sid endHeaders frag).head
    (options.payload frag ++ behind), _, fragment_eq, ?_⟩
  show ctx.onHeaders env _ _ = _
  rw [onHeaders, if_neg stream', if_neg room, if_neg (Nat.not_lt.mpr padded)]
  rfl

theorem handleFrames_of_isConnectionError {behind : List UInt8} {handled : Handled}
    (failed : handled.isConnectionError = true) (frames : List Frame) :
    handleFrames env behind handled frames = some handled := by
  cases frames with
  | nil => rfl
  | cons frame frames => rw [handleFrames, if_pos failed]

end Blocks

theorem handleBlock_eq_bind (env : Environment) (ctx : H2Context) (options : HeadersOptions)
    (sid : Nat) (behind frag : List UInt8) (frags : List (List UInt8)) :
    handleBlock env ctx options sid behind frag frags =
      (ctx.handle env (options.headersFrame sid frags.isEmpty frag).head
        (options.payload frag ++
          ((blockContinuations sid frags).flatMap Frame.serialize ++ behind))).bind
        fun handled => handleFrames env behind handled (blockContinuations sid frags) :=
  rfl

theorem observe_handleBlock {env : Environment} {ctx ctx' : H2Context} {options : HeadersOptions}
    {sid : Nat} {stream : Option H2StreamContext} (numbered : sid ≠ 0)
    (enters : Enters env ctx sid ctx' stream) (receiving : Receiving ctx' sid stream)
    (behind frag : List UInt8) (frags : List (List UInt8))
    (small : (options.payload frag).length < 2 ^ 24)
    (cuts : CutAtFields ctx.hpacker (frag :: frags)) :
    (handleBlock env ctx options sid behind frag frags).map (observe sid) =
      (ctx.hpacker.decodePiece acceptsHeader (frag :: frags).flatten).map
        (view stream) := by
  obtain ⟨fragSize, padLength, it, rfl, handled_eq⟩ := @handle_headersFrame env ctx sid
    options numbered frags.isEmpty frag
    ((blockContinuations sid frags).flatMap Frame.serialize ++ behind) small
  rw [handleBlock_eq_bind, handled_eq, enters.entered _ _ _ _ rfl, ← enters.hpacker_eq]
  rw [← enters.hpacker_eq] at cuts
  exact observe_fragments behind delivers_enterHeaders rfl
    (has_headersFrame options sid _ _).2.2 receiving cuts

/-- A block that is cut behind whole fields with accepted headers leads to the same headers and
tables as the block in one HEADERS frame, for streams that are pending, new or given up.  A fragment
that ends inside of a literal is refused; one that ends inside of another representation loses its
last bytes. -/
theorem handleBlock_fragments (env : Environment) (ctx : H2Context) (options : HeadersOptions)
    (streamId : Nat) (behind fragment : List UInt8) (fragments : List (List UInt8))
    (small : (options.payload (fragment :: fragments).flatten).length < 2 ^ 24)
    (nothingKept : ∀ sctx ∈ ctx.findStream streamId, sctx.remainingHeaderFragment = []) :
    (CutAtFields ctx.hpacker (fragment :: fragments) →
      (handleBlock env ctx options streamId behind fragment fragments).map (observe streamId) =
        (handleBlock env ctx options streamId behind (fragment :: fragments).flatten []).map
          (observe streamId)) ∧
    ∀ (p q p' : HPacker) (piece : List UInt8) (headers : List Header) (first : UInt8)
      (head tail : List UInt8) (item : Option Header),
      p.readFields acceptsHeader piece.length piece = some (q, headers) →
      q.readField (first :: head ++ tail) = some (.value item [], p') → tail ≠ [] →
      p.decodePiece acceptsHeader (piece ++ first :: head) =
        some (q, headers, !decide (isLiteral first)) := by
  constructor
  · intro cuts
    have smaller : (options.payload fragment).length < 2 ^ 24 := by
      simp only [HeadersOptions.payload, List.length_append, List.flatten_cons] at small ⊢
      omega
    by_cases numbered : streamId = 0
    · -- A HEADERS frame of stream 0 is refused.
      subst numbered
      have refused (fragment : List UInt8) (fragments : List (List UInt8)) :
          (handleBlock env ctx options 0 behind fragment fragments).map (observe 0) =
            some (observe 0 (ctx.fail .protocolError [])) := by
        rw [handleBlock_eq_bind, show ctx.handle env _ _ = ctx.onHeaders env _ _ from rfl,
          onHeaders, if_pos (show (options.headersFrame 0 fragments.isEmpty fragment).head.streamId
            = 0 from rfl), bind_some, handleFrames_of_isConnectionError rfl]
        rfl
      rw [refused, refused]
    · rcases onFragment_cases env ctx streamId with
        ⟨-, ctx', stream, enters⟩ | ⟨-, ctx', error, -, refuses⟩
      · have receiving : Receiving ctx' streamId stream := by
          refine ⟨enters.found, fun sctx member => ?_, fun missing => ?_⟩
          · exact (enters.kept sctx member).elim (nothingKept sctx) id
          · rw [enters.clientSide_eq]
            exact (enters.ignored_iff.mp missing).1
        rw [observe_handleBlock numbered enters receiving behind fragment fragments smaller cuts,
          observe_handleBlock numbered enters receiving behind _ [] small trivial]
        simp
      · have refused (fragment : List UInt8) (fragments : List (List UInt8))
            (small : (options.payload fragment).length < 2 ^ 24) :
            (handleBlock env ctx options streamId behind fragment fragments).map
                (observe streamId) =
              some (observe streamId (ctx'.fail error [])) := by
          obtain ⟨fragSize, padLength, it, -, handled_eq⟩ := @handle_headersFrame env ctx streamId
            options numbered fragments.isEmpty fragment
            ((blockContinuations streamId fragments).flatMap Frame.serialize ++ behind) small
          rw [handleBlock_eq_bind, handled_eq, refuses _ _ _ _ rfl, bind_some,
            handleFrames_of_isConnectionError rfl]
          rfl
        rw [refused fragment fragments smaller, refused _ [] small]
  · intro p q p' piece headers first head tail item whole cutField cut
    rw [decodePiece_append whole, decodePiece_cut cutField cut]
    simp [prepend]

def newServer : H2Context := { clientSide := false, unackLocalSettings := {}, hpacker := newPacker }

theorem handleBlock_fragments_request :
    (handleBlock ⟨fun _ => true, none⟩ newServer {} 1 [] [0x82, 0x84]
          [[0x40, 1, 97, 1, 98], [], [0xbe]]).map (observe 1) =
        (handleBlock ⟨fun _ => true, none⟩ newServer {} 1 []
          [0x82, 0x84, 0x40, 1, 97, 1, 98, 0xbe] []).map (observe 1) ∧
      newPacker.decodePiece acceptsHeader [0x00, 1] = some (newPacker, [], false) := by
  have block := handleBlock_fragments ⟨fun _ => true, none⟩ newServer {} 1 [] [0x82, 0x84]
    [[0x40, 1, 97, 1, 98], [], [0xbe]] (by decide) (fun sctx found => by
      have missing : newServer.findStream 1 = none := rfl
      simp [missing] at found)
  exact ⟨block.1 (by decide +kernel), block.2 newPacker newPacker newPacker [] [] 0x00 [1]
    [97, 1, 98] (some ⟨[97], [98]⟩) (by rfl) (by rfl) (by decide)⟩

/-- A literal that is cut behind the length of its name is an error; a size update of 64 that is cut
behind its first byte becomes one of 1. -/
theorem handleBlock_ne_fragments :
    (handleBlock ⟨fun _ => true, none⟩ newServer {} 1 [] [0x82, 0x00, 1] [[97, 1, 98]]).map
          (fun handled => (observe 1 handled).2) ≠
        (handleBlock ⟨fun _ => true, none⟩ newServer {} 1 [] [0x82, 0x00, 1, 97, 1, 98] []).map
          (fun handled => (observe 1 handled).2) ∧
      (handleBlock ⟨fun _ => true, none⟩ newServer {} 1 [] [0x3f] [[0x21, 0x82]]).map
          (fun handled => (observe 1 handled).1.decodeTable.maxSize) = some 1 ∧
      (handleBlock ⟨fun _ => true, none⟩ newServer {} 1 [] [0x3f, 0x21, 0x82] []).map
          (fun handled => (observe 1 handled).1.decodeTable.maxSize) = some 64 := by
  decide +kernel

end McBrpc.Http2
