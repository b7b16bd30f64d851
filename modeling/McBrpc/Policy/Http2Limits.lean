import McBrpc.Policy.Http2Connection

/-!
# Limits that the other side sets

The other side announces the size of its header table and the number of streams it allows, and a
GOAWAY frame names the last stream it processes.
-/

namespace McBrpc.Http2

open Hpack H2Context Execution List Connection Option IndexTable

section HeaderTable

variable {t t' : IndexTable}

theorem popHeader_some (popped : t.popHeader = some t') :
    t'.maxSize = t.maxSize ∧ t'.headerQueue.length < t.headerQueue.length := by
  unfold popHeader at popped
  split at popped
  · simp at popped
  · next queue =>
    simp only [removeHeaderFromIndexes, bind_eq_bind] at popped
    split at popped
    · simp only [bind_eq_some_iff, some.injEq] at popped
      obtain ⟨_, ⟨_, _, _, _, rfl⟩, rfl⟩ := popped
      simp [queue]
    · obtain rfl := some.inj popped
      simp [queue]

theorem evict_some {entrySize fuel : Nat} (enough : t.headerQueue.length < fuel)
    (evicted : evict entrySize fuel t = some t') :
    t'.maxSize = t.maxSize ∧ (t'.size = 0 ∨ t'.size + entrySize ≤ t'.maxSize) := by
  induction fuel generalizing t with
  | zero => omega
  | succ fuel ih =>
    rw [evict] at evicted
    split at evicted
    · obtain ⟨popped, pop_eq, evicted⟩ := bind_eq_some_iff.mp evicted
      obtain ⟨maxSize_eq, less⟩ := popHeader_some pop_eq
      rw [← maxSize_eq]
      exact ih (by omega) evicted
    · obtain rfl := some.inj evicted
      exact ⟨rfl, by omega⟩

/-- The size of a table is within a maximum that does not change. -/
def Within (maxSize : Nat) (t : IndexTable) : Prop := t.size ≤ t.maxSize ∧ t.maxSize = maxSize

variable {maxSize : Nat}

theorem Within.addHeader (within : Within maxSize t) {h : Header}
    (added : t.addHeader h = some t') : Within maxSize t' := by
  obtain ⟨kept, evicted, added⟩ := bind_eq_some_iff.mp added
  obtain ⟨maxSize_eq, fits⟩ := evict_some (Nat.lt_succ_self _) evicted
  split at added
  · obtain rfl := some.inj added
    exact ⟨by omega, maxSize_eq.trans within.2⟩
  · obtain rfl := some.inj added
    refine ⟨?_, maxSize_eq.trans within.2⟩
    simp only [push]
    omega

/-- What changes the table of the encoder or the limit of the other side. -/
inductive HeaderEvent where
  | settings (env : Environment) (head : H2FrameHead) (it : List UInt8)
  | encode (header : Header) (options : HPackOptions)

/-- A side of a connection, and the decoder of the other side, which reads what is encoded. -/
structure HeaderLink where
  ctx : H2Context
  peer : HPacker

namespace HeaderLink

def start (clientSide : Bool) (settings : H2Settings) (hpacker : HPacker) : HeaderLink :=
  ⟨(Connection.start clientSide settings hpacker).ctx, newPacker⟩

/-- The size that the other side announced last. -/
def announced (link : HeaderLink) : Nat := link.ctx.remoteSettings.headerTableSize

/-- The other side decodes with the size that it has announced. -/
def step (link : HeaderLink) : HeaderEvent → HeaderLink
  | .settings env head it =>
    let ctx := (link.ctx.onSettings env head it).ctx
    let table := link.peer.decodeTable.resetMaxSize ctx.remoteSettings.headerTableSize
    ⟨ctx, { link.peer with decodeTable := table.getD link.peer.decodeTable }⟩
  | .encode header options =>
    match link.ctx.hpacker.encode header options with
    | some (bytes, hpacker) =>
      ⟨{ link.ctx with hpacker }, (link.peer.decode bytes.length bytes).elim link.peer (·.2)⟩
    | none => link

end HeaderLink

def HeaderEvent.Codable : HeaderEvent → Prop
  | settings .. => True
  | encode header options => Hpack.Codable (header, options)

theorem Within.encode {p p' : HPacker} (within : Within maxSize p.encodeTable) {header : Header}
    {options : HPackOptions} {bytes : List UInt8}
    (encoded : p.encode header options = some (bytes, p')) : Within maxSize p'.encodeTable := by
  unfold HPacker.encode at encoded
  simp only at encoded
  repeat' split at encoded
  · obtain ⟨-, rfl⟩ := Prod.mk.inj (some.inj encoded)
    exact within
  · obtain ⟨table, added, encoded⟩ := bind_eq_some_iff.mp encoded
    obtain ⟨-, rfl⟩ := Prod.mk.inj (some.inj encoded)
    exact within.addHeader added
  · obtain ⟨-, rfl⟩ := Prod.mk.inj (some.inj encoded)
    exact within

theorem hpacker_onSettings (env : Environment) (ctx : H2Context) (head : H2FrameHead)
    (it : List UInt8) : (ctx.onSettings env head it).ctx.hpacker = ctx.hpacker := by
  unfold onSettings applySettings settingsParsed
  repeat' split
  all_goals rfl

/-- The tables of the two sides, whose entries have at least 34 bytes. -/
abbrev HeaderLink.Synced (maxSize : Nat) (link : HeaderLink) : Prop :=
  Hpack.Synced maxSize (34 ≤ headerSize ·) link.ctx.hpacker.encodeTable link.peer.decodeTable

section Peer

variable {link : HeaderLink} (indexable : 61 + maxSize / 34 < maxHpackInteger)
include indexable

theorem HeaderLink.synced_step (synced : link.Synced maxSize) {event : HeaderEvent}
    (codable : event.Codable) (same : (link.step event).announced = maxSize)
    (times : link.ctx.hpacker.encodeTable.addTimes < 2 ^ 31) :
    (link.step event).Synced maxSize ∧ (link.step event).ctx.hpacker.encodeTable.addTimes ≤
      link.ctx.hpacker.encodeTable.addTimes + 1 := by
  cases event with
  | settings env head it =>
    have max_eq : link.peer.decodeTable.maxSize = maxSize :=
      congrArg (fun setup => setup.2.2.1) synced.receiver_setup
    have size_eq : (link.ctx.onSettings env head it).ctx.remoteSettings.headerTableSize =
        link.peer.decodeTable.maxSize := Eq.trans same max_eq.symm
    have kept : link.peer.decodeTable.resetMaxSize
        (link.ctx.onSettings env head it).ctx.remoteSettings.headerTableSize =
          some link.peer.decodeTable := by
      rw [resetMaxSize, size_eq, if_neg (Nat.lt_irrefl _)]
    simp only [HeaderLink.Synced, step, kept, getD_some, hpacker_onSettings]
    exact ⟨synced, Nat.le_succ _⟩
  | encode header options =>
    obtain ⟨bytes, hpacker, encoded, ⟨ne, receiver, after, decoded⟩, later⟩ :=
      encode_spec synced indexable (fun _ large => large) codable codable.large times
    obtain ⟨fuel, fuel_eq⟩ := Nat.exists_eq_succ_of_ne_zero (length_pos_iff.mpr ne).ne'
    have read := decoded [] fuel
    rw [append_nil, ← Nat.succ_eq_add_one, ← fuel_eq] at read
    simp only [HeaderLink.Synced, step, encoded, read, Option.elim]
    exact ⟨after, later⟩

theorem HeaderLink.synced_run (synced : link.Synced maxSize) {events : List HeaderEvent}
    (same : EveryState step (·.announced = maxSize) link events)
    (codable : ∀ event ∈ events, event.Codable)
    (times : link.ctx.hpacker.encodeTable.addTimes + events.length ≤ 2 ^ 31) :
    (events.foldl step link).Synced maxSize := by
  induction events generalizing link with
  | nil => exact synced
  | cons event events ih =>
    rw [length_cons] at times
    have rest := ((everyState_cons ..).mp same).2
    obtain ⟨after, later⟩ := synced_step indexable synced (codable _ mem_cons_self)
      (rest [] nil_prefix) (by omega)
    exact ih after rest (fun other mem => codable other (mem_cons_of_mem _ mem)) (by omega)

end Peer

/-- Whenever the other side has not announced less than the size in the local settings, the table
of the encoder is within what it announced.  If it has announced this size all the time, the tables
of the two sides hold the same entries, but for the case of the names. -/
theorem encodeTable_within_announced (clientSide : Bool) (settings : H2Settings)
    {hpacker : HPacker} (init : HPacker.init settings.headerTableSize = some hpacker)
    (events : List HeaderEvent) :
    let start := HeaderLink.start clientSide settings hpacker
    let link := events.foldl HeaderLink.step start
    (settings.headerTableSize ≤ link.announced →
        link.ctx.hpacker.encodeTable.size ≤ link.announced) ∧
      (EveryState HeaderLink.step (·.announced = settings.headerTableSize) start events →
        (∀ event ∈ events, event.Codable) → events.length ≤ 2 ^ 31 →
          link.peer.decodeTable.headerQueue =
            link.ctx.hpacker.encodeTable.headerQueue.map Header.lowered) := by
  intro start link
  obtain rfl : hpacker = ⟨new 62 true settings.headerTableSize (settings.headerTableSize / 34),
      new 62 false settings.headerTableSize (settings.headerTableSize / 34)⟩ := by
    rw [HPacker.init, endIndex_staticTable] at init
    split at init
    · simp at init
    · exact (some.inj init).symm
  constructor
  · intro wide
    have within : Within settings.headerTableSize link.ctx.hpacker.encodeTable := by
      refine foldl_invariant (fun link : HeaderLink => Within _ link.ctx.hpacker.encodeTable)
        events ⟨Nat.zero_le _, rfl⟩ ?_
      intro link event _ within
      cases event with
      | settings env head it =>
        simp only [HeaderLink.step, hpacker_onSettings]
        exact within
      | encode header options =>
        rw [HeaderLink.step]
        split
        · next encoded => exact within.encode encoded
        · exact within
    exact (within.1.trans_eq within.2).trans wide
  · intro same codable few
    have size_eq : 4096 = settings.headerTableSize := same [] nil_prefix
    have synced : start.Synced settings.headerTableSize := by
      simp only [HeaderLink.Synced, start, HeaderLink.start, Connection.start, newPacker,
        ← size_eq]
      exact synced_new 4096 _
    refine (HeaderLink.synced_run ?_ synced same codable ?_).queue_eq
    · rw [← size_eq]
      decide
    · simpa [start, HeaderLink.start, Connection.start, new] using few

/-- The other side announces the size that it has, and a header is sent. -/
theorem encodeTable_within_announced_one :
    let events := [HeaderEvent.settings { writable := fun _ => true } ⟨6, .settings, 0, 0⟩
      [0, 1, 0, 0, 16, 0], .encode ⟨[97], [98]⟩ {}]
    let link := events.foldl HeaderLink.step (.start true {} newPacker)
    link.ctx.hpacker.encodeTable.size ≤ link.announced ∧
      link.peer.decodeTable.headerQueue = [⟨[97], [98]⟩] := by
  intro events link
  obtain ⟨within, equal⟩ := encodeTable_within_announced true {}
    (by rw [HPacker.init, endIndex_staticTable]; rfl) events
  refine ⟨within (by decide +kernel), (equal ?_ ?_ (by decide)).trans (by decide +kernel)⟩
  · exact (everyState_iff_everyStep_target ..).mpr (by decide +kernel)
  · have codable : Hpack.Codable (⟨[97], [98]⟩, {}) := by decide +kernel
    exact forall_mem_cons.mpr ⟨trivial, forall_mem_singleton.mpr codable⟩

/-- The other side announces a table of size 0, and a header is still put into the table. -/
theorem not_encodeTable_within_announced :
    let link := [HeaderEvent.settings { writable := fun _ => true } ⟨6, .settings, 0, 0⟩
      [0, 1, 0, 0, 0, 0], .encode ⟨[97], [98]⟩ {}].foldl HeaderLink.step (.start true {} newPacker)
    link.announced < link.ctx.hpacker.encodeTable.size := by
  decide +kernel

end HeaderTable

section Streams

variable (ctx : H2Context) (dataSize : Nat)

/-- `VolatilePendingStreamSize` -/
def openStreams : Nat := ctx.pendingStreams.entries.length

def Opens : Prop := openStreams ctx < openStreams (ctx.appendRequest dataSize)

instance : Decidable (Opens ctx dataSize) := inferInstanceAs (Decidable (_ < _))

/-- The request gets a number, its part of the windows and a place among the streams. -/
def GetsPlace : Prop :=
  ctx.lastSentStreamId ≤ 0x7FFFFFFF ∧
    (dataSize = 0 ∨
      dataSize ≤ ctx.remoteSettings.streamWindowSize ∧ dataSize ≤ ctx.remoteWindowLeft) ∧
    (ctx.goawayStreamId < 0 ∨ ctx.lastSentStreamId ≤ ctx.goawayStreamId) ∧
    ctx.findStream ctx.lastSentStreamId = none

variable {ctx dataSize}

theorem openStreams_tryToInsertStream (streamId : Nat) (sctx : H2StreamContext) :
    match ctx.tryToInsertStream streamId sctx with
    | .inserted ctx' => openStreams ctx' = openStreams ctx + 1 ∧
        (ctx.goawayStreamId < 0 ∨ streamId ≤ ctx.goawayStreamId) ∧ ctx.findStream streamId = none
    | _ => ¬((ctx.goawayStreamId < 0 ∨ streamId ≤ ctx.goawayStreamId) ∧
        ctx.findStream streamId = none) := by
  unfold tryToInsertStream
  split_ifs with beyond existing
  · exact fun both => by omega
  · exact fun both => by simp [both.2] at existing
  · have missing := not_isSome_iff_eq_none.mp existing
    refine ⟨?_, by omega, missing⟩
    rw [openStreams, AList.entries_insert_of_notMem (AList.lookup_eq_none.mp missing)]
    rfl

theorem openStreams_appendRequest : openStreams (ctx.appendRequest dataSize) = openStreams ctx + 1 ∧
      openStreams ctx ≤ ctx.remoteSettings.maxConcurrentStreams ∧ GetsPlace ctx dataSize ∨
    openStreams (ctx.appendRequest dataSize) = openStreams ctx ∧
      (openStreams ctx ≤ ctx.remoteSettings.maxConcurrentStreams → ¬GetsPlace ctx dataSize) := by
  unfold appendRequest
  split_ifs with many used wide
  · exact .inr ⟨rfl, fun few => absurd many (Nat.not_lt.mpr few)⟩
  · exact .inr ⟨rfl, fun _ gets => absurd used (Nat.not_lt.mpr gets.1)⟩
  · refine .inr ⟨rfl, fun _ gets => ?_⟩
    have := gets.2.1
    omega
  · have inserted := @openStreams_tryToInsertStream (ctx.allocated dataSize) ctx.lastSentStreamId
      { ctx.newStream ctx.lastSentStreamId with
        remoteWindowLeft := ctx.remoteSettings.streamWindowSize - dataSize }
    split
    · next ctx' ins =>
      rw [ins] at inserted
      exact .inl ⟨inserted.1, Nat.not_lt.mp many, Nat.not_lt.mp used, by omega, inserted.2⟩
    · next other =>
      refine .inr ⟨rfl, fun _ gets => ?_⟩
      split at inserted
      · next ins => exact other _ ins
      · exact inserted gets.2.2

/-- A request that opens a stream leaves no more of them than the other side allows. -/
def OpensWithin (conn : Connection) : Event → Prop
  | .request dataSize => conn.closed = false → Opens conn.ctx dataSize →
    openStreams (conn.step (.request dataSize)).ctx ≤ conn.ctx.remoteSettings.maxConcurrentStreams
  | _ => True

/-- A request that gets a place does not find as many streams as the other side allows. -/
def BelowLimit (conn : Connection) : Event → Prop
  | .request dataSize => conn.closed = false → GetsPlace conn.ctx dataSize →
    openStreams conn.ctx ≠ conn.ctx.remoteSettings.maxConcurrentStreams
  | _ => True

instance (conn : Connection) : DecidablePred (OpensWithin conn)
  | .request dataSize => inferInstanceAs (Decidable (_ → Opens conn.ctx dataSize → _))
  | .receive _ | .consume _ | .clearAbandonedStreams _ | .abandon _ | .respond _ => .isTrue trivial

theorem everyStep_opensWithin_iff (settings : H2Settings) (hpacker : HPacker)
    (events : List Event) :
    EveryStep step OpensWithin (start true settings hpacker) events ↔
      EveryStep step BelowLimit (start true settings hpacker) events := by
  refine everyStep_congr (fun _ => True) trivial (fun _ _ _ _ => trivial) ?_
  rintro conn event - -
  cases event with
  | request dataSize =>
    refine forall_congr' fun isOpen => ?_
    have step_eq : (conn.step (.request dataSize)).ctx = conn.ctx.appendRequest dataSize := by
      simp [step, isOpen]
    rw [step_eq, Opens]
    rcases @openStreams_appendRequest conn.ctx dataSize with ⟨more, few, gets⟩ | ⟨same, refused⟩
    · rw [more]
      simp only [gets, true_imp_iff]
      omega
    · rw [same]
      refine iff_of_true (fun less => absurd less (Nat.lt_irrefl _)) fun gets full => ?_
      exact refused full.le gets
  | receive _ | consume _ | clearAbandonedStreams _ | abandon _ | respond _ => exact Iff.rfl

/-- The other side allows one stream, and two are opened. -/
theorem not_everyStep_opensWithin : ¬ EveryStep step OpensWithin (start true {} newPacker)
      [.receive [0, 0, 6, 4, 0, 0, 0, 0, 0, 0, 3, 0, 0, 0, 1],
        .consume { writable := fun _ => true },
        .consume { writable := fun _ => true }, .request 0, .request 0] := by
  decide +kernel

end Streams

section GoAway

/-- `last_stream_id` where the format has it: behind the reserved bit, in front of the debug
data. -/
def statedLastStreamId (it : List UInt8) : Nat := loadUint 4 it % 2 ^ 31

variable (ctx : H2Context) (head : H2FrameHead) (it : List UInt8)

/-- The streams beyond the stated one are removed and completed, the others stay. -/
def RemovesBeyond : Prop :=
  (ctx.onGoAway head it).ctx.pendingStreams =
      ctx.pendingStreams.filterKeys (fun id => !decide (statedLastStreamId it < id)) ∧
    ctx.goAwayStreams (lastStreamId head it) =
      (ctx.pendingStreams.filterKeys fun id => decide (statedLastStreamId it < id)).values.map
        fun sctx => { sctx with statusCode := some statusServiceUnavailable }

/-- No open stream is between the number that is read and the stated one. -/
def NoneBetween : Prop :=
  ∀ stream ∈ ctx.pendingStreams.entries,
    lastStreamId head it < stream.1 ↔ statedLastStreamId it < stream.1

instance : Decidable (NoneBetween ctx head it) := inferInstanceAs (Decidable (∀ _ ∈ _, _))

variable {ctx head it}

theorem filterKeys_congr {test test' : Nat → Bool}
    (agree : ∀ stream ∈ ctx.pendingStreams.entries, test stream.1 = test' stream.1) :
    ctx.pendingStreams.filterKeys test = ctx.pendingStreams.filterKeys test' :=
  AList.ext (filter_congr agree)

/-- A client with three streams receives a GOAWAY frame. -/
def goingAway : H2Context :=
  ((replicate 3 (Event.request 0)).foldl step (start true {} newPacker)).ctx

end GoAway

end McBrpc.Http2
