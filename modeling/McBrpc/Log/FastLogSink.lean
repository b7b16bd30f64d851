import Mathlib.Algebra.Group.Nat.Defs
import Mathlib.Data.Nat.Bits
import McBrpc.Library.PaddedFile
import McBrpc.Log.LogSink

/-!
# The memory-mapped log sink

`FastLogSink` maps a window of the log file into memory, copies each message to the current address
and maps the next window when a message does not fit.  Addresses are numbers, with 0 as the null
pointer; `mapOffset` is the file offset that the kernel keeps for the mapping.
-/

namespace McBrpc

open List Nat

/-- What the system and the flags fix for a process: the page size, a power of two, the flag
`map_trunk_size` and the address that each `mmap` call yields. -/
structure LogHost where
  pageShift : Nat
  mapTrunkSize : Nat
  mmap : Nat → Nat
  mmap_ne : ∀ call, mmap call ≠ 0

namespace LogHost

def getPageSize (host : LogHost) : Nat := 2 ^ host.pageShift

/-- Clears the bits of the size below the page size. -/
def roundDownToPageSize (host : LogHost) (size : Nat) : Nat :=
  size - (size &&& (host.getPageSize - 1))

theorem getPageSize_pos (host : LogHost) : 0 < host.getPageSize := Nat.two_pow_pos _

theorem roundDownToPageSize_eq (host : LogHost) (size : Nat) :
    host.roundDownToPageSize size = size - size % host.getPageSize := by
  rw [roundDownToPageSize, getPageSize, and_two_pow_sub_one_eq_mod]

end LogHost

/-- The static members of `FastLogSink`, the bytes of the log file and the bytes sent to
`stderr`. -/
structure FastLogSink where
  logFd : Option Nat
  beginAddr : Nat
  curAddr : Nat
  endAddr : Nat
  mapOffset : Nat
  mmaps : Nat
  file : List UInt8
  stderr : List UInt8

/-- One call of `OnLogMessage`: what `open` would yield if it were called, and the message. -/
structure LogCall where
  opened : Option Nat
  logContent : List UInt8

namespace FastLogSink

open PaddedFile

/-- `AdjustFileMap`; the differences of sizes may pass below zero on the way. -/
def adjustFileMap (host : LogHost) (sink : FastLogSink) : FastLogSink :=
  let fileSize : Int := sink.file.length
  let curPos : Int :=
    if sink.beginAddr ≠ 0 ∧ sink.endAddr ≠ 0 then
      fileSize - ((sink.endAddr : Int) - sink.curAddr)
    else fileSize
  let offset := host.roundDownToPageSize curPos.toNat
  let newFileSize := fileSize + (host.mapTrunkSize - (fileSize - offset) + 1)
  let beginAddr := host.mmap sink.mmaps
  { sink with
    file := resize 0 newFileSize.toNat sink.file
    mapOffset := offset
    mmaps := sink.mmaps + 1
    beginAddr := beginAddr
    curAddr := beginAddr + (curPos.toNat - offset)
    endAddr := beginAddr + host.mapTrunkSize }

/-- `Init`, given what `open` yields. -/
def init (host : LogHost) (settings : LoggingSettings) (opened : Option Nat) (sink : FastLogSink) :
    Bool × FastLogSink :=
  match sink.logFd with
  | some _ => (true, sink)
  | none =>
    match opened with
    | none => (false, { sink with stderr := sink.stderr ++ settings.failToInit })
    | some fd => (true, adjustFileMap host { sink with logFd := some fd })

/-- The `while` loop of `OnLogMessage`, at most the given number of times. -/
def makeRoom (host : LogHost) (length : Nat) : Nat → FastLogSink → Option FastLogSink
  | 0, sink => if sink.curAddr + length > sink.endAddr then none else some sink
  | fuel + 1, sink =>
    if sink.curAddr + length > sink.endAddr then
      makeRoom host length fuel (adjustFileMap host sink)
    else some sink

/-- The `memcpy` of `OnLogMessage` and the step of the current address after it. -/
def copy (logContent : List UInt8) (sink : FastLogSink) : FastLogSink :=
  { sink with
    file := overwrite (sink.mapOffset + (sink.curAddr - sink.beginAddr)) logContent sink.file
    curAddr := sink.curAddr + logContent.length }

/-- `OnLogMessage`, with at most the given number of remappings. -/
def onLogMessage (host : LogHost) (settings : LoggingSettings) (fuel : Nat) (sink : FastLogSink)
    (call : LogCall) : Option FastLogSink :=
  let shown := { sink with stderr := sink.stderr ++ settings.debugLog call.logContent }
  if settings.ToFile then
    let (ready, opened) := init host settings call.opened shown
    if ready then (makeRoom host call.logContent.length fuel opened).map (copy call.logContent)
    else some opened
  else some shown

def close (sink : FastLogSink) : FastLogSink :=
  match sink.logFd with
  | none => sink
  | some _ => { sink with logFd := none, beginAddr := 0, curAddr := 0, endAddr := 0 }

/-- The sink has no open file, as at the start and after `Close`. -/
structure Closed (sink : FastLogSink) : Prop where
  logFd : sink.logFd = none
  beginAddr : sink.beginAddr = 0

/-- The window is mapped, and the file holds the contents up to the current address and zeros from
there to one byte past the window. -/
structure Mapped (host : LogHost) (contents : List UInt8) (sink : FastLogSink) : Prop where
  opened : ∃ fd, sink.logFd = some fd
  beginAddr : sink.beginAddr ≠ 0
  begin_le : sink.beginAddr ≤ sink.curAddr
  cur_le : sink.curAddr ≤ sink.endAddr
  endAddr : sink.endAddr = sink.beginAddr + host.mapTrunkSize
  aligned : host.getPageSize ∣ sink.mapOffset
  position : contents.length = sink.mapOffset + (sink.curAddr - sink.beginAddr)
  file : sink.file = contents ++ replicate (sink.endAddr - sink.curAddr + 1) 0

def room (sink : FastLogSink) : Nat := sink.endAddr - sink.curAddr

section

variable {host : LogHost} {opts : LoggingSettings} {text : List UInt8} {sink : FastLogSink}

theorem mapped_adjustFileMap (wide : host.getPageSize ≤ host.mapTrunkSize)
    (opened : ∃ fd, sink.logFd = some fd) (spare : Nat)
    (curPos_eq : (if sink.beginAddr ≠ 0 ∧ sink.endAddr ≠ 0 then
      (sink.file.length : Int) - ((sink.endAddr : Int) - sink.curAddr)
      else sink.file.length) = text.length)
    (file_eq : sink.file = text ++ replicate spare 0) (grows : text.length + spare ≤
      host.roundDownToPageSize text.length + host.mapTrunkSize + 1) :
    Mapped host text (adjustFileMap host sink) ∧
      (adjustFileMap host sink).room =
        host.mapTrunkSize - text.length % host.getPageSize := by
  have rounded := host.roundDownToPageSize_eq text.length
  have below := mod_lt text.length host.getPageSize_pos
  have mod_le := mod_le text.length host.getPageSize
  have newSize_eq : ((sink.file.length : Int) + (host.mapTrunkSize -
      (sink.file.length - host.roundDownToPageSize text.length) + 1)).toNat =
      host.roundDownToPageSize text.length + host.mapTrunkSize + 1 := by omega
  rw [adjustFileMap]
  simp only [curPos_eq, Int.toNat_natCast, newSize_eq]
  refine ⟨⟨opened, host.mmap_ne _, by simp, ?_, rfl, ?_, ?_, ?_⟩, ?_⟩
  · simp only
    omega
  · rw [rounded]
    exact dvd_sub_mod _
  · simp only
    omega
  · simp only
    rw [file_eq, resize_append_replicate grows]
    congr 2
    omega
  · simp only [room]
    omega

theorem mapped_init (wide : host.getPageSize ≤ host.mapTrunkSize) (closed : Closed sink)
    (opts : LoggingSettings) (fd : Nat) :
    Mapped host sink.file (init host opts (some fd) sink).2 ∧
      (init host opts (some fd) sink).2.room =
        host.mapTrunkSize - sink.file.length % host.getPageSize := by
  rw [init, closed.logFd]
  have rounded := host.roundDownToPageSize_eq sink.file.length
  have below := mod_lt sink.file.length host.getPageSize_pos
  exact mapped_adjustFileMap wide ⟨fd, rfl⟩ 0 (by simp [closed.beginAddr]) (by simp) (by omega)

theorem Mapped.adjustFileMap (mapped : Mapped host text sink)
    (wide : host.getPageSize ≤ host.mapTrunkSize) :
    Mapped host (text ++ [0]) (adjustFileMap host sink) ∧
      (FastLogSink.adjustFileMap host sink).room =
        host.mapTrunkSize - (text.length + 1) % host.getPageSize := by
  have begin_le := mapped.begin_le
  have cur_le := mapped.cur_le
  have position := mapped.position
  have endAddr := mapped.endAddr
  have beginAddr := mapped.beginAddr
  have rounded := host.roundDownToPageSize_eq (text.length + 1)
  have aligned : sink.mapOffset ≤ host.roundDownToPageSize (text.length + 1) := by
    obtain ⟨page, page_eq⟩ := mapped.aligned
    have divided : page ≤ (text.length + 1) / host.getPageSize := by
      rw [le_div_iff_mul_le host.getPageSize_pos, mul_comm, ← page_eq]
      omega
    have scaled := mul_le_mul_left host.getPageSize divided
    have split := div_add_mod (text.length + 1) host.getPageSize
    omega
  have size_eq : sink.file.length = text.length + (sink.endAddr - sink.curAddr + 1) := by
    simp [mapped.file]
  have length_eq : (text ++ [0]).length = text.length + 1 := by simp
  rw [← length_eq]
  rw [← length_eq] at aligned
  refine mapped_adjustFileMap wide mapped.opened (sink.endAddr - sink.curAddr) ?_ ?_ ?_
  · rw [if_pos ⟨beginAddr, by omega⟩]
    omega
  · rw [mapped.file, append_assoc, replicate_succ]
    rfl
  · omega

theorem Mapped.copy (mapped : Mapped host text sink) {log : List UInt8}
    (fits : log.length ≤ sink.room) :
    Mapped host (text ++ log) (copy log sink) ∧
      (FastLogSink.copy log sink).room = sink.room - log.length := by
  have begin_le := mapped.begin_le
  have cur_le := mapped.cur_le
  have position := mapped.position
  rw [room] at fits
  refine ⟨⟨mapped.opened, mapped.beginAddr, ?_, ?_, mapped.endAddr, mapped.aligned, ?_, ?_⟩, ?_⟩
  all_goals simp only [FastLogSink.copy, room]
  · omega
  · omega
  · rw [length_append]
    omega
  · rw [mapped.file, ← position, overwrite_append_replicate]
    congr 2
    omega
  · omega

theorem init_of_opened {opened : Option Nat} {fd : Nat}
    (fd_eq : sink.logFd = some fd) : init host opts opened sink = (true, sink) := by
  simp [init, fd_eq]

theorem makeRoom_of_fits {length : Nat} (fits : length ≤ sink.room)
    (cur_le : sink.curAddr ≤ sink.endAddr) (fuel : Nat) :
    makeRoom host length fuel sink = some sink := by
  rw [room] at fits
  have enough : ¬sink.curAddr + length > sink.endAddr := by omega
  cases fuel with
  | zero | succ => rw [makeRoom, if_neg enough]

/-- The loop ends when the position reaches a page boundary, at the latest. -/
theorem Mapped.makeRoom_of_full (wide : host.getPageSize ≤ host.mapTrunkSize) {length : Nat}
    (length_le : length ≤ host.mapTrunkSize) {fuel : Nat} (mapped : Mapped host text sink)
    (full : sink.room < length) {steps : Nat} (steps_lt : steps < fuel)
    (boundary : host.getPageSize ∣ text.length + steps + 1) :
    ∃ gap sink', makeRoom host length fuel sink = some sink' ∧
      Mapped host (text ++ replicate (gap + 1) 0) sink' ∧ length ≤ sink'.room := by
  induction fuel generalizing text sink steps with
  | zero => exact absurd steps_lt (not_lt_zero steps)
  | succ fuel ih =>
    obtain ⟨remapped, room_eq⟩ := mapped.adjustFileMap wide
    have loops : sink.curAddr + length > sink.endAddr := by
      rw [room] at full
      omega
    rw [makeRoom, if_pos loops]
    rcases lt_or_ge (FastLogSink.adjustFileMap host sink).room length with less | enough
    · cases steps with
      | zero =>
        rw [room_eq, mod_eq_zero_of_dvd (by simpa using boundary)] at less
        omega
      | succ steps =>
        have boundary' : host.getPageSize ∣ (text ++ [0]).length + steps + 1 := by
          have length_eq : (text ++ [0]).length + steps + 1 =
              text.length + (steps + 1) + 1 := by
            rw [length_append, length_singleton]
            omega
          rwa [length_eq]
        obtain ⟨gap, sink', made, mapped', fits⟩ :=
          ih remapped less (lt_of_succ_lt_succ steps_lt) boundary'
        refine ⟨gap + 1, sink', made, ?_, fits⟩
        rwa [append_assoc] at mapped'
    · exact ⟨0, _, makeRoom_of_fits enough remapped.cur_le fuel, remapped, enough⟩

theorem exists_boundary (host : LogHost) (place : Nat) :
    ∃ steps < host.getPageSize, host.getPageSize ∣ place + steps + 1 := by
  have positive := host.getPageSize_pos
  have below := mod_lt place positive
  have split := div_add_mod place host.getPageSize
  refine ⟨host.getPageSize - 1 - place % host.getPageSize, by omega,
    place / host.getPageSize + 1, ?_⟩
  rw [mul_succ]
  omega

theorem Mapped.onLogMessage (mapped : Mapped host text sink) (toFile : opts.ToFile)
    (wide : host.getPageSize ≤ host.mapTrunkSize) {fuel : Nat} (enough : host.getPageSize ≤ fuel)
    {call : LogCall} (length_le : call.logContent.length ≤ host.mapTrunkSize) :
    ∃ gap sink', onLogMessage host opts fuel sink call = some sink' ∧
      Mapped host (text ++ (replicate gap 0 ++ call.logContent)) sink' ∧
        (call.logContent.length ≤ sink.room →
          gap = 0 ∧ sink'.room = sink.room - call.logContent.length) ∧
        (sink.room < call.logContent.length → 0 < gap) := by
  let shown := { sink with stderr := sink.stderr ++ opts.debugLog call.logContent }
  have room_eq : shown.room = sink.room := rfl
  have shown_mapped : Mapped host text shown := ⟨mapped.opened, mapped.beginAddr,
    mapped.begin_le, mapped.cur_le, mapped.endAddr, mapped.aligned, mapped.position, mapped.file⟩
  obtain ⟨fd, opened⟩ := shown_mapped.opened
  rw [FastLogSink.onLogMessage, if_pos toFile, init_of_opened opened, ← room_eq]
  simp only [if_true]
  rcases lt_or_ge shown.room call.logContent.length with full | fits
  · obtain ⟨steps, steps_lt, boundary⟩ := exists_boundary host text.length
    obtain ⟨gap, sink', made, roomy, fits⟩ :=
      shown_mapped.makeRoom_of_full wide length_le full (steps_lt.trans_le enough) boundary
    refine ⟨gap + 1, FastLogSink.copy call.logContent sink', by rw [made]; rfl, ?_, by omega,
      by omega⟩
    rw [← append_assoc]
    exact (roomy.copy fits).1
  · refine ⟨0, FastLogSink.copy call.logContent shown, ?_, (shown_mapped.copy fits).1, ?_, by omega⟩
    · rw [makeRoom_of_fits fits shown_mapped.cur_le]
      rfl
    · exact fun _ => ⟨rfl, (shown_mapped.copy fits).2⟩

variable (toFile : opts.ToFile)
  (wide : host.getPageSize ≤ host.mapTrunkSize) {fuel : Nat} (enough : host.getPageSize ≤ fuel)
   {calls : List LogCall}
  (length_le : ∀ call ∈ calls, call.logContent.length ≤ host.mapTrunkSize)

def logged (calls : List LogCall) : List UInt8 := calls.flatMap LogCall.logContent

include toFile wide enough length_le in
theorem Mapped.run_padded (mapped : Mapped host text sink) :
    ∃ sink' cells, calls.foldlM (FastLogSink.onLogMessage host opts fuel) sink = some sink' ∧
      sink'.file = text ++ cells ∧ Padded 0 (logged calls) cells := by
  induction calls generalizing text sink with
  | nil => exact ⟨sink, _, rfl, mapped.file, padded_replicate 0 _⟩
  | cons call calls ih =>
    obtain ⟨here, later⟩ := forall_mem_cons.mp length_le
    obtain ⟨gap, next, step_eq, mapped', -⟩ :=
      mapped.onLogMessage toFile wide enough here
    obtain ⟨sink', cells, run_eq, file_eq, padded⟩ := ih later mapped'
    refine ⟨sink', replicate gap 0 ++ (call.logContent ++ cells), ?_, ?_, ?_⟩
    · rw [foldlM_cons, step_eq]
      exact run_eq
    · rw [file_eq]
      simp
    · exact (padded.append_left call.logContent).replicate_append gap

/-- The messages fit a window with the given room up to some message, and consist of zero bytes
from the first one that does not fit. -/
def Undisturbed : Nat → List LogCall → Prop
  | _, [] => True
  | room, call :: calls =>
    if call.logContent.length ≤ room then Undisturbed (room - call.logContent.length) calls
    else ∀ byte ∈ logged (call :: calls), byte = 0

include toFile wide enough length_le in
theorem Mapped.run_prefix_iff (mapped : Mapped host text sink) :
    ∃ sink' cells, calls.foldlM (FastLogSink.onLogMessage host opts fuel) sink = some sink' ∧
      sink'.file = text ++ cells ∧
        (logged calls <+: cells ↔ Undisturbed sink.room calls) := by
  induction calls generalizing text sink with
  | nil => exact ⟨sink, _, rfl, mapped.file, by simp [logged, Undisturbed]⟩
  | cons call calls ih =>
    obtain ⟨here, later⟩ := forall_mem_cons.mp length_le
    obtain ⟨gap, next, step_eq, mapped', fitting, full⟩ :=
      mapped.onLogMessage toFile wide enough here
    rw [foldlM_cons, step_eq, Undisturbed]
    split
    · next fits =>
      obtain ⟨rfl, room_eq⟩ := fitting fits
      obtain ⟨sink', cells, run_eq, file_eq, prefix_iff⟩ := ih later mapped'
      refine ⟨sink', call.logContent ++ cells, run_eq, ?_, ?_⟩
      · rw [file_eq, replicate_zero, nil_append, append_assoc]
      · rw [← room_eq, ← prefix_iff]
        exact prefix_append_right_inj _
    · next beyond =>
      obtain ⟨before, rfl⟩ := Nat.exists_eq_succ_of_ne_zero (full (Nat.lt_of_not_le beyond)).ne'
      obtain ⟨sink', cells, run_eq, file_eq, padded⟩ :=
        mapped'.run_padded toFile wide enough later
      have spelled := (padded.append_left call.logContent).replicate_append before
      refine ⟨sink', 0 :: (replicate before 0 ++ (call.logContent ++ cells)), run_eq, ?_,
        spelled.prefix_gap_iff⟩
      rw [file_eq]
      simp [replicate_succ]

/-- Between an `Init` and the next `Close` every call returns, and from its old size on the file
begins with the messages exactly when no message with a non-zero byte follows a remapping. -/
theorem file_begins_iff (host : LogHost) {settings : LoggingSettings} (toFile : settings.ToFile)
    (trunk : host.getPageSize ∣ host.mapTrunkSize) (trunk_ne : host.mapTrunkSize ≠ 0)
    (closed : Closed sink) (fd : Nat) (calls : List LogCall)
    (length_le : ∀ call ∈ calls, call.logContent.length ≤ host.mapTrunkSize)
    (fuel : Nat) (enough : host.getPageSize ≤ fuel) :
    ∃ sink', calls.foldlM (onLogMessage host settings fuel)
        (init host settings (some fd) sink).2 = some sink' ∧
      (logged calls <+: sink'.file.drop sink.file.length ↔
        Undisturbed (host.mapTrunkSize - sink.file.length % host.getPageSize) calls) := by
  have wide := Nat.le_of_dvd (Nat.pos_of_ne_zero trunk_ne) trunk
  obtain ⟨mapped, room_eq⟩ := mapped_init wide closed settings fd
  obtain ⟨sink', cells, run_eq, file_eq, begins⟩ :=
    mapped.run_prefix_iff toFile wide enough length_le
  refine ⟨sink', run_eq, ?_⟩
  rw [file_eq, drop_left, begins, room_eq]

end

def pagedHost : LogHost where
  pageShift := 12
  mapTrunkSize := 4 * 1024
  mmap _ := 65536
  mmap_ne _ := by decide

def emptySink : FastLogSink := ⟨none, 0, 0, 0, 0, 0, [], []⟩

theorem closed_emptySink : Closed emptySink := ⟨rfl, rfl⟩

/-- Two short messages are found at the start of the file. -/
theorem file_begins_two_messages :
    ∃ sink, [⟨none, [97]⟩, ⟨none, [98]⟩].foldlM (onLogMessage pagedHost fileSettings 4096)
        (init pagedHost fileSettings (some 3) emptySink).2 = some sink ∧
      [97, 98] <+: sink.file := by
  obtain ⟨sink, run_eq, begins⟩ := file_begins_iff pagedHost toFile_fileSettings (by decide)
    (by decide) closed_emptySink 3 [⟨none, [97]⟩, ⟨none, [98]⟩] (by decide) 4096 (by decide)
  refine ⟨sink, run_eq, begins.mpr ?_⟩
  simp [Undisturbed, pagedHost, emptySink]

/-- A message that fills the window, and one more byte. -/
def fillingCalls : List LogCall := [⟨none, replicate 4096 97⟩, ⟨none, [98]⟩]

/-- The message after a full window is not found behind the one that filled it. -/
theorem not_file_begins_fillingCalls :
    ∃ sink, fillingCalls.foldlM (onLogMessage pagedHost fileSettings 4096)
        (init pagedHost fileSettings (some 3) emptySink).2 = some sink ∧
      ¬logged fillingCalls <+: sink.file.drop emptySink.file.length := by
  have wide : pagedHost.getPageSize ≤ pagedHost.mapTrunkSize := by decide
  obtain ⟨mapped, room_eq⟩ := mapped_init wide closed_emptySink fileSettings 3
  have length_le : ∀ call ∈ fillingCalls, call.logContent.length ≤ pagedHost.mapTrunkSize := by
    simp [fillingCalls, pagedHost, -reduceReplicate]
  obtain ⟨sink, cells, run_eq, file_eq, begins⟩ :=
    mapped.run_prefix_iff toFile_fileSettings wide (le_refl _) length_le
  refine ⟨sink, run_eq, ?_⟩
  rw [file_eq, drop_left, begins, room_eq]
  simp [Undisturbed, fillingCalls, pagedHost, emptySink, logged, -reduceReplicate]

end FastLogSink
end McBrpc
