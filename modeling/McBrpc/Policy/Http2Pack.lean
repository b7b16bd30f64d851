import Mathlib.Data.List.Flatten
import McBrpc.Policy.Http2Frame

/-!
# Packing a message into frames

`PackH2Message` cuts a header block, a body and a block of trailers into the frames of one stream.
The header block goes into a HEADERS frame and as many CONTINUATION frames as it needs, the body
into DATA frames, the trailers into one more HEADERS frame.
-/

namespace McBrpc.Http2

open List H2FrameHead Nat

/-- `max_frame_size` of the remote settings, in the range that `ParseH2Settings` accepts. -/
structure MaxFrameSize where
  value : Nat
  /-- `H2Settings::DEFAULT_MAX_FRAME_SIZE` -/
  default_le : 16384 ≤ value
  /-- `H2Settings::MAX_OF_MAX_FRAME_SIZE` -/
  le_max : value ≤ 16777215

/-- The cutting loop: full frames without flags, then what is left under the last flags. -/
def cutFrames (type : H2FrameType) (lastFlags : UInt8) (streamId maxFrameSize : Nat) :
    Nat → List UInt8 → List Frame
  | 0, _ => []
  | fuel + 1, bytes =>
    if bytes = [] then
      []
    else if bytes.length ≤ maxFrameSize then
      [⟨⟨bytes.length, type, lastFlags, streamId⟩, bytes⟩]
    else
      ⟨⟨maxFrameSize, type, 0, streamId⟩, bytes.take maxFrameSize⟩ ::
        cutFrames type lastFlags streamId maxFrameSize fuel (bytes.drop maxFrameSize)

/-- The loop over `cont_head`. -/
def continuationFrames (streamId maxFrameSize : Nat) (headers : List UInt8) : List Frame :=
  cutFrames .continuation flagsEndHeaders streamId maxFrameSize headers.length headers

/-- The frames of the header block.  `headers_head.payload_size` is an `uint32_t`. -/
def headerFrames (streamId maxFrameSize : Nat) (endStream : Bool) (headers : List UInt8) :
    List Frame :=
  let flags := if endStream then flagsEndStream else 0
  if headers.length % 2 ^ 32 ≤ maxFrameSize then
    [⟨⟨headers.length % 2 ^ 32, .headers, flags ||| flagsEndHeaders, streamId⟩, headers⟩]
  else
    ⟨⟨maxFrameSize, .headers, flags, streamId⟩, headers.take maxFrameSize⟩ ::
      continuationFrames streamId maxFrameSize (headers.drop maxFrameSize)

/-- The loop over `data_head`.  The iterator counts `bytes_left` in an `uint32_t`. -/
def dataFrames (streamId maxFrameSize : Nat) (endStream : Bool) (data : List UInt8) : List Frame :=
  let bytesLeft := data.take (data.length % 2 ^ 32)
  cutFrames .data (if endStream then flagsEndStream else 0) streamId maxFrameSize
    bytesLeft.length bytesLeft

def trailerFrames (streamId : Nat) (trailers : List UInt8) : List Frame :=
  if trailers = [] then
    []
  else
    [⟨⟨trailers.length % 2 ^ 32, .headers, flagsEndStream ||| flagsEndHeaders, streamId⟩, trailers⟩]

/-- The WINDOW_UPDATE of the connection, when there is a deferred one. -/
def windowFrames (connWu : Int) : List Frame :=
  if 0 < connWu then
    [⟨⟨4, .windowUpdate, 0, 0⟩, BigEndian.encode 4 (connWu % 2 ^ 32).toNat⟩]
  else
    []

/-- `PackH2Message`: the frames appended to `out`, in order. -/
def packH2Message (maxFrameSize : MaxFrameSize) (headers trailers data : List UInt8)
    (streamId : Nat) (connWu : Int) : List Frame :=
  headerFrames streamId maxFrameSize.value (data.isEmpty && trailers.isEmpty) headers ++
    dataFrames streamId maxFrameSize.value trailers.isEmpty data ++
    trailerFrames streamId trailers ++
    windowFrames connWu

/-- The payload has the length its head tells, which the receiver accepts. -/
def Frame.Bounded (maxFrameSize : Nat) (frame : Frame) : Prop :=
  frame.head.payloadSize = frame.payload.length ∧ frame.payload.length ≤ maxFrameSize

def payloads (frames : List Frame) : List UInt8 := frames.flatMap Frame.payload

/-- A header block: HEADERS, then CONTINUATION, with END_HEADERS on the last fragment only. -/
structure IsHeaderBlock (block : List UInt8) (frames : List Frame) : Prop where
  payloads_eq : payloads frames = block
  types_eq : ∃ more, frames.map (·.head.type) =
    .headers :: replicate more .continuation
  endHeaders_eq : ∃ more, frames.map (·.head.has flagsEndHeaders) =
    replicate more false ++ [true]

/-- END_STREAM stands on one frame that may carry it, with at most the rest of its header block
and frames of the connection behind it. -/
def EndsStreamOnce (frames : List Frame) : Prop :=
  ∃ before last after, frames = before ++ last :: after ∧
    last.head.has flagsEndStream = true ∧
    (last.head.type = .headers ∨ last.head.type = .data) ∧
    (∀ frame ∈ before ++ after, frame.head.has flagsEndStream = false) ∧
    ∀ frame ∈ after, frame.head.type = .continuation ∨ frame.head.type = .windowUpdate

/-- What a receiver is owed: the three parts in frames it accepts, with the flags in place. -/
structure WellPacked (maxFrameSize : Nat) (headers trailers data : List UInt8)
    (frames : List Frame) : Prop where
  bounded : ∀ frame ∈ frames, frame.Bounded maxFrameSize
  endsStreamOnce : EndsStreamOnce frames
  parts : ∃ headerPart dataPart trailerPart rest,
    frames = headerPart ++ dataPart ++ trailerPart ++ rest ∧
    IsHeaderBlock headers headerPart ∧
    (∀ frame ∈ dataPart, frame.head.type = .data) ∧ payloads dataPart = data ∧
    (if trailers = [] then trailerPart = [] else IsHeaderBlock trailers trailerPart) ∧
    ∀ frame ∈ rest, frame.head.type = .windowUpdate

section Cutting

variable {type : H2FrameType} {lastFlags : UInt8} {sid maxFrameSize : Nat}

@[simp]
theorem cutFrames_nil (fuel : Nat) :
    cutFrames type lastFlags sid maxFrameSize fuel [] = [] := by
  cases fuel <;> simp [cutFrames]

theorem head_cutFrames (fuel : Nat) (bytes : List UInt8) :
    ∀ frame ∈ cutFrames type lastFlags sid maxFrameSize fuel bytes,
      frame.head.type = type ∧ (frame.head.flags = 0 ∨ frame.head.flags = lastFlags) := by
  induction fuel generalizing bytes with
  | zero => simp [cutFrames]
  | succ fuel ih =>
    unfold cutFrames
    split
    · simp
    · split
      · simp
      · simpa using ih (bytes.drop maxFrameSize)

theorem types_cutFrames (fuel : Nat) (bytes : List UInt8) :
    ∃ more, (cutFrames type lastFlags sid maxFrameSize fuel bytes).map (·.head.type) =
      replicate more type :=
  ⟨_, eq_replicate_of_mem <| forall_mem_map.mpr fun frame mem =>
    (head_cutFrames fuel bytes frame mem).1⟩

theorem bounded_cutFrames (fuel : Nat) (bytes : List UInt8) :
    ∀ frame ∈ cutFrames type lastFlags sid maxFrameSize fuel bytes,
      frame.Bounded maxFrameSize := by
  induction fuel generalizing bytes with
  | zero => simp [cutFrames]
  | succ fuel ih =>
    unfold cutFrames
    split
    · simp
    · split
      · next fits => simpa [Frame.Bounded] using fits
      · next long =>
        have cut : (bytes.take maxFrameSize).length = maxFrameSize :=
          length_take_of_le (by omega)
        simpa [Frame.Bounded, cut] using ih (bytes.drop maxFrameSize)

variable (pos : 0 < maxFrameSize)

include pos

theorem payloads_cutFrames (fuel : Nat) (bytes : List UInt8) (enough : bytes.length ≤ fuel) :
    payloads (cutFrames type lastFlags sid maxFrameSize fuel bytes) = bytes := by
  induction fuel generalizing bytes with
  | zero => simp [length_eq_zero_iff.mp (by omega : bytes.length = 0), payloads]
  | succ fuel ih =>
    unfold cutFrames
    split
    · next nothing => simp [nothing, payloads]
    · split
      · simp [payloads]
      · have less : (bytes.drop maxFrameSize).length ≤ fuel := by
          rw [length_drop]
          omega
        have rest := ih (bytes.drop maxFrameSize) less
        rw [payloads] at rest
        rw [payloads, flatMap_cons, rest, take_append_drop]

theorem flags_cutFrames (fuel : Nat) (bytes : List UInt8) (enough : bytes.length ≤ fuel)
    (ne : bytes ≠ []) :
    ∃ more, (cutFrames type lastFlags sid maxFrameSize fuel bytes).map (·.head.flags) =
      replicate more 0 ++ [lastFlags] := by
  induction fuel generalizing bytes with
  | zero => exact absurd (length_eq_zero_iff.mp (by omega)) ne
  | succ fuel ih =>
    unfold cutFrames
    rw [if_neg ne]
    split
    · exact ⟨0, rfl⟩
    · next long =>
      have less : (bytes.drop maxFrameSize).length ≤ fuel := by
        rw [length_drop]
        omega
      have remains : bytes.drop maxFrameSize ≠ [] := by
        rw [ne_eq, drop_eq_nil_iff]
        omega
      obtain ⟨more, flags_eq⟩ := ih (bytes.drop maxFrameSize) less remains
      exact ⟨more + 1, by rw [map_cons, flags_eq, replicate_succ]; rfl⟩

end Cutting

@[simp]
theorem has_of_flags_eq_zero {head : H2FrameHead} (none : head.flags = 0) (flag : UInt8) :
    head.has flag = false := by
  simp [has, none]

theorem exists_last_of_flags {frames : List Frame} {lastFlags : UInt8}
    (flags_eq : ∃ more, frames.map (·.head.flags) = replicate more 0 ++ [lastFlags]) :
    ∃ before last, frames = before ++ [last] ∧ last.head.flags = lastFlags ∧
      ∀ frame ∈ before, frame.head.flags = 0 := by
  obtain ⟨more, flags_eq⟩ := flags_eq
  obtain ⟨before, final, rfl, before_eq, final_eq⟩ := map_eq_append_iff.mp flags_eq
  obtain ⟨last, rfl, last_eq⟩ := map_eq_singleton_iff.mp final_eq
  refine ⟨before, last, rfl, last_eq, fun frame mem => ?_⟩
  have listed : frame.head.flags ∈ replicate more (0 : UInt8) := by
    rw [← before_eq]
    exact mem_map_of_mem mem
  exact eq_of_mem_replicate listed

theorem has_eq_of_flags {frames : List Frame} {lastFlags flag : UInt8}
    (flags_eq : ∃ more, frames.map (·.head.flags) = replicate more 0 ++ [lastFlags]) :
    ∃ more, frames.map (·.head.has flag) =
      replicate more false ++ [lastFlags &&& flag != 0] := by
  obtain ⟨more, flags_eq⟩ := flags_eq
  have tested := congrArg (map (· &&& flag != 0)) flags_eq
  refine ⟨more, ?_⟩
  simpa [has, Function.comp_def] using tested

variable {sid : Nat} {max : MaxFrameSize} {headers trailers data : List UInt8}

theorem MaxFrameSize.pos (max : MaxFrameSize) : 0 < max.value :=
  Nat.lt_of_lt_of_le (by decide) max.default_le

theorem headerFrames_cons (ends : Bool) :
    ∃ first rest, headerFrames sid max.value ends headers = first :: rest ∧
      first.head.type = .headers ∧ first.head.has flagsEndStream = ends ∧
      ∀ frame ∈ rest, frame.head.type = .continuation ∧
        frame.head.has flagsEndStream = false := by
  unfold headerFrames
  simp only
  split
  · refine ⟨_, [], rfl, rfl, ?_, by simp⟩
    simp only [has]
    cases ends <;> decide
  · refine ⟨_, _, rfl, rfl, ?_, fun frame mem => ?_⟩
    · simp only [has]
      cases ends <;> decide
    · obtain ⟨type_eq, none | last⟩ := head_cutFrames _ _ frame mem
      all_goals refine ⟨type_eq, ?_⟩
      · exact has_of_flags_eq_zero none _
      · rw [has, last]
        decide

theorem has_endStream_headerFrames : ∀ frame ∈ headerFrames sid max.value false headers,
      frame.head.has flagsEndStream = false := by
  obtain ⟨first, rest, header_eq, -, first_has, rest_spec⟩ :=
    @headerFrames_cons sid max headers false
  rw [header_eq]
  intro frame mem
  rcases mem_cons.mp mem with rfl | mem
  · exact first_has
  · exact (rest_spec frame mem).2

theorem isHeaderBlock_headerFrames (ends : Bool) :
    IsHeaderBlock headers (headerFrames sid max.value ends headers) := by
  unfold headerFrames
  simp only
  split
  · refine ⟨by simp [payloads], ⟨0, rfl⟩, ⟨0, ?_⟩⟩
    simp only [has, map_cons, map_nil]
    cases ends <;> decide
  · next long =>
    have remains : headers.drop max.value ≠ [] := by
      rw [ne_eq, drop_eq_nil_iff]
      omega
    refine ⟨?_, ?_, ?_⟩
    · rw [payloads, flatMap_cons]
      exact (congrArg _ (payloads_cutFrames max.pos _ _ (Nat.le_refl _))).trans
        (take_append_drop _ _)
    · obtain ⟨more, types_eq⟩ := types_cutFrames _ _
      exact ⟨more, congrArg _ types_eq⟩
    · have flags_eq : ∃ more, (continuationFrames sid max.value
          (headers.drop max.value)).map (·.head.flags) =
            replicate more 0 ++ [flagsEndHeaders] :=
        flags_cutFrames max.pos _ _ (Nat.le_refl _) remains
      obtain ⟨more, has_eq⟩ := has_eq_of_flags flags_eq
      have first :
          ((if ends then flagsEndStream else 0) &&& flagsEndHeaders != 0) = false := by
        cases ends <;> decide
      exact ⟨more + 1, congrArg₂ cons first has_eq⟩

theorem bounded_headerFrames (ends : Bool)
    (cast : headers.length ≤ max.value ∨ max.value < headers.length % 2 ^ 32) :
    ∀ frame ∈ headerFrames sid max.value ends headers, frame.Bounded max.value := by
  unfold headerFrames
  simp only
  split
  · next short =>
    have fits : headers.length ≤ max.value := by omega
    have kept : headers.length % 2 ^ 32 = headers.length :=
      mod_eq_of_lt (by have := max.le_max; omega)
    intro frame mem
    obtain rfl := mem_singleton.mp mem
    exact ⟨kept, fits⟩
  · have cut : (headers.take max.value).length = max.value :=
      length_take_of_le (by have := mod_le headers.length (2 ^ 32); omega)
    intro frame mem
    rcases mem_cons.mp mem with rfl | mem
    · exact ⟨cut.symm, Nat.le_of_eq cut⟩
    · exact bounded_cutFrames _ _ frame mem

theorem payloads_dataFrames (ends : Bool) :
    payloads (dataFrames sid max.value ends data) = data.take (data.length % 2 ^ 32) :=
  payloads_cutFrames max.pos _ _ (Nat.le_refl _)

theorem type_dataFrames (ends : Bool) :
    ∀ frame ∈ dataFrames sid max.value ends data, frame.head.type = .data :=
  fun frame mem => (head_cutFrames _ _ frame mem).1

theorem dataFrames_eq_append (ends : Bool) (ne : data.take (data.length % 2 ^ 32) ≠ []) :
    ∃ before last, dataFrames sid max.value ends data = before ++ [last] ∧
      last.head.has flagsEndStream = ends ∧
      ∀ frame ∈ before, frame.head.has flagsEndStream = false := by
  have flags_eq : ∃ more, (dataFrames sid max.value ends data).map (·.head.flags) =
      replicate more 0 ++ [if ends then flagsEndStream else 0] :=
    flags_cutFrames max.pos _ _ (Nat.le_refl _) ne
  obtain ⟨before, last, frames_eq, last_flags, before_flags⟩ := exists_last_of_flags flags_eq
  refine ⟨before, last, frames_eq, ?_, fun frame mem =>
    has_of_flags_eq_zero (before_flags frame mem) _⟩
  rw [has, last_flags]
  cases ends <;> decide

theorem has_endStream_dataFrames : ∀ frame ∈ dataFrames sid max.value false data,
      frame.head.has flagsEndStream = false := by
  intro frame mem
  rcases (head_cutFrames _ _ frame mem).2 with none | last
  · exact has_of_flags_eq_zero none _
  · exact has_of_flags_eq_zero last _

variable {connWu : Int}

theorem mem_windowFrames {frame : Frame} (mem : frame ∈ windowFrames connWu) :
    frame.head.type = .windowUpdate ∧ frame.head.flags = 0 ∧ frame.Bounded 4 := by
  unfold windowFrames at mem
  split at mem
  · obtain rfl := mem_singleton.mp mem
    exact ⟨rfl, rfl, by simp [Frame.Bounded]⟩
  · simp at mem

theorem isHeaderBlock_trailerFrames (ne : trailers ≠ []) :
    IsHeaderBlock trailers (trailerFrames sid trailers) := by
  rw [trailerFrames, if_neg ne]
  exact ⟨by simp [payloads], ⟨0, rfl⟩, ⟨0, by simp only [has, map_cons]; decide⟩⟩

theorem endsStreamOnce_of_append {before after : List Frame} {last : Frame}
    (last_has : last.head.has flagsEndStream = true)
    (last_type : last.head.type = .headers ∨ last.head.type = .data)
    (before_has : ∀ frame ∈ before, frame.head.has flagsEndStream = false)
    (after_spec : ∀ frame ∈ after, frame.head.has flagsEndStream = false ∧
      (frame.head.type = .continuation ∨ frame.head.type = .windowUpdate)) :
    EndsStreamOnce (before ++ last :: after) := by
  refine ⟨before, last, after, rfl, last_has, last_type, fun frame mem => ?_,
    fun frame mem => (after_spec frame mem).2⟩
  rcases mem_append.mp mem with mem | mem
  · exact before_has frame mem
  · exact (after_spec frame mem).1

theorem windowFrames_spec : ∀ frame ∈ windowFrames connWu, frame.head.has flagsEndStream = false ∧
      (frame.head.type = .continuation ∨ frame.head.type = .windowUpdate) := by
  intro frame mem
  obtain ⟨type_eq, flags_eq, -⟩ := mem_windowFrames mem
  exact ⟨has_of_flags_eq_zero flags_eq _, .inr type_eq⟩

/-- END_STREAM closes the message in the header block, the body or the trailers. -/
theorem endsStreamOnce_packH2Message (connWu : Int) (counted : data.length < 2 ^ 32) :
    EndsStreamOnce (packH2Message max headers trailers data sid connWu) := by
  unfold packH2Message
  by_cases closing : trailers = []
  · subst closing
    by_cases empty : data = []
    · -- The header block is all there is: its first frame ends the stream.
      subst empty
      obtain ⟨first, rest, header_eq, first_type, first_has, rest_spec⟩ :=
        @headerFrames_cons sid max headers true
      have frames_eq : headerFrames sid max.value true headers ++
          dataFrames sid max.value true [] ++ trailerFrames sid [] ++
            windowFrames connWu = [] ++ first :: (rest ++ windowFrames connWu) := by
        simp [header_eq, dataFrames, trailerFrames]
      refine frames_eq ▸ endsStreamOnce_of_append first_has (.inl first_type) (by simp) ?_
      intro frame mem
      rcases mem_append.mp mem with mem | mem
      · exact ⟨(rest_spec frame mem).2, .inl (rest_spec frame mem).1⟩
      · exact windowFrames_spec frame mem
    · -- The last DATA frame ends the stream.
      have whole : data.take (data.length % 2 ^ 32) = data := by
        rw [mod_eq_of_lt counted, take_length]
      obtain ⟨before, last, data_eq, last_has, before_has⟩ :=
        @dataFrames_eq_append sid max data true (by rwa [whole])
      have last_type : last.head.type = .data :=
        type_dataFrames true last (by rw [data_eq]; simp)
      have frames_eq : headerFrames sid max.value false headers ++
          dataFrames sid max.value true data ++ trailerFrames sid [] ++
            windowFrames connWu =
          (headerFrames sid max.value false headers ++ before) ++
            last :: windowFrames connWu := by
        simp [data_eq, trailerFrames]
      have isEmpty_eq : data.isEmpty = false := by simpa using empty
      rw [isEmpty_eq]
      refine frames_eq ▸ endsStreamOnce_of_append last_has (.inr last_type) ?_ windowFrames_spec
      intro frame mem
      rcases mem_append.mp mem with mem | mem
      · exact has_endStream_headerFrames frame mem
      · exact before_has frame mem
  · -- The frame of the trailers ends the stream.
    have isEmpty_eq : trailers.isEmpty = false := by simpa using closing
    rw [isEmpty_eq, Bool.and_false, trailerFrames, if_neg closing, append_assoc]
    refine endsStreamOnce_of_append (by simp only [has]; decide) (.inl rfl) ?_
      windowFrames_spec
    intro frame mem
    rcases mem_append.mp mem with mem | mem
    · exact has_endStream_headerFrames frame mem
    · exact has_endStream_dataFrames frame mem

theorem bounded_trailerFrames (fits : trailers.length ≤ max.value) :
    ∀ frame ∈ trailerFrames sid trailers, frame.Bounded max.value := by
  unfold trailerFrames
  split
  · simp
  · intro frame mem
    obtain rfl := mem_singleton.mp mem
    exact ⟨mod_eq_of_lt (by have := max.le_max; omega), fits⟩

theorem bounded_windowFrames : ∀ frame ∈ windowFrames connWu, frame.Bounded max.value := by
  intro frame mem
  obtain ⟨-, -, size_eq, short⟩ := mem_windowFrames mem
  exact ⟨size_eq, Nat.le_trans short (Nat.le_trans (by decide) max.default_le)⟩

theorem IsHeaderBlock.type_ne_data {block : List UInt8} {frames : List Frame}
    (isBlock : IsHeaderBlock block frames) : ∀ frame ∈ frames, frame.head.type ≠ .data := by
  obtain ⟨more, types_eq⟩ := isBlock.types_eq
  intro frame mem
  have listed : frame.head.type ∈ frames.map (·.head.type) := mem_map_of_mem mem
  rw [types_eq, mem_cons, mem_replicate] at listed
  rcases listed with isHeaders | ⟨-, isContinuation⟩
  · simp [isHeaders]
  · simp [isContinuation]

theorem filter_data_eq {headerPart dataPart trailerPart rest : List Frame}
    (isHeader : IsHeaderBlock headers headerPart)
    (isData : ∀ frame ∈ dataPart, frame.head.type = .data)
    (isTrailer : if trailers = [] then trailerPart = [] else IsHeaderBlock trailers trailerPart)
    (isWindow : ∀ frame ∈ rest, frame.head.type = .windowUpdate) :
    (headerPart ++ dataPart ++ trailerPart ++ rest).filter (·.head.type = .data) = dataPart := by
  have noHeader : headerPart.filter (·.head.type = .data) = [] := by
    simpa using isHeader.type_ne_data
  have noTrailer : trailerPart.filter (·.head.type = .data) = [] := by
    split at isTrailer
    · simp [isTrailer]
    · simpa using isTrailer.type_ne_data
  have noWindow : rest.filter (·.head.type = .data) = [] := by
    simpa using fun frame mem => by simp [isWindow frame mem]
  have allData : dataPart.filter (·.head.type = .data) = dataPart := by
    simpa using isData
  simp [noHeader, noTrailer, noWindow, allData]

theorem isTrailer_trailerFrames : if trailers = [] then trailerFrames sid trailers = []
    else IsHeaderBlock trailers (trailerFrames sid trailers) := by
  split
  · next none => rw [none, trailerFrames, if_pos rfl]
  · next some => exact isHeaderBlock_trailerFrames some

theorem filter_data_packH2Message (connWu : Int) :
    (packH2Message max headers trailers data sid connWu).filter (·.head.type = .data) =
      dataFrames sid max.value trailers.isEmpty data :=
  filter_data_eq (isHeaderBlock_headerFrames _) (type_dataFrames _) isTrailer_trailerFrames
    fun _ mem => (mem_windowFrames mem).1

theorem length_data_lt_of_payloads {ends : Bool}
    (data_eq : payloads (dataFrames sid max.value ends data) = data) :
    data.length < 2 ^ 32 := by
  have length_eq := congrArg length data_eq
  rw [payloads_dataFrames, length_take] at length_eq
  omega

theorem length_trailers_le_of_bounded {connWu : Int}
    (bound : ∀ frame ∈ packH2Message max headers trailers data sid connWu,
      frame.Bounded max.value) : trailers.length ≤ max.value := by
  by_cases none : trailers = []
  · simp [none]
  · simp only [packH2Message, trailerFrames, if_neg none, forall_mem_append,
      mem_singleton, forall_eq] at bound
    exact bound.1.2.2

theorem length_headers_of_bounded
    (bound : ∀ frame ∈ packH2Message max headers trailers data sid connWu,
      frame.Bounded max.value) :
    headers.length ≤ max.value ∨ max.value < headers.length % 2 ^ 32 := by
  by_cases short : headers.length % 2 ^ 32 ≤ max.value
  · simp only [packH2Message, headerFrames, if_pos short, forall_mem_append,
      mem_singleton, forall_eq] at bound
    exact .inl bound.1.1.1.2
  · exact .inr (Nat.not_le.mp short)

/-- The packing is right exactly when the header block's length survives its cast, the body's
length fits the iterator and the trailers fit one frame. -/
theorem packH2Message_wellPacked_iff (max : MaxFrameSize) (headers trailers data : List UInt8)
    (streamId : Nat) (connWu : Int) :
    WellPacked max.value headers trailers data
        (packH2Message max headers trailers data streamId connWu) ↔
      (headers.length ≤ max.value ∨ max.value < headers.length % 2 ^ 32) ∧
        data.length < 2 ^ 32 ∧ trailers.length ≤ max.value := by
  constructor
  · intro packed
    obtain ⟨headerPart, dataPart, trailerPart, rest, frames_eq, isHeader, isData, data_eq,
      isTrailer, isWindow⟩ := packed.parts
    have dataPart_eq : dataPart = dataFrames streamId max.value trailers.isEmpty data := by
      rw [← filter_data_packH2Message connWu, frames_eq,
        filter_data_eq isHeader isData isTrailer isWindow]
    exact ⟨length_headers_of_bounded packed.bounded,
      length_data_lt_of_payloads (dataPart_eq ▸ data_eq),
      length_trailers_le_of_bounded packed.bounded⟩
  · rintro ⟨cast, counted, fits⟩
    refine ⟨?_, endsStreamOnce_packH2Message connWu counted, ?_⟩
    · unfold packH2Message
      simp only [forall_mem_append]
      exact ⟨⟨⟨bounded_headerFrames _ cast, bounded_cutFrames _ _⟩, bounded_trailerFrames fits⟩,
        bounded_windowFrames⟩
    · refine ⟨_, _, _, _, rfl, isHeaderBlock_headerFrames _, type_dataFrames _, ?_,
        isTrailer_trailerFrames, fun frame member => (mem_windowFrames member).1⟩
      rw [payloads_dataFrames, mod_eq_of_lt counted, take_length]

/-- Trailers one byte longer than the default frame size leave in one frame all the same. -/
theorem not_wellPacked_longTrailers : ¬ WellPacked 16384 [0x88] (replicate 16385 0) []
        (packH2Message ⟨16384, by decide, by decide⟩ [0x88] (replicate 16385 0) [] 1 0) := by
  intro packed
  have short :=
    @length_trailers_le_of_bounded 1 ⟨16384, by decide, by decide⟩ _ _ _ 0 packed.bounded
  rw [length_replicate] at short
  exact absurd short (by decide)

end McBrpc.Http2
