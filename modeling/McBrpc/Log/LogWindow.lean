import McBrpc.Log.FastLogSink

/-!
# The windows of the memory-mapped log sink

Every `AdjustFileMap` moves the position of the sink by one byte, maps the window that starts at its
page and makes the file end one byte behind the window.  A window of no bytes cannot be mapped: then
the process exits in `Init`.
-/

namespace McBrpc

open List Nat Option

theorem LogHost.le_roundDownToPageSize {host : LogHost} {offset position : Nat}
    (aligned : host.getPageSize ∣ offset) (offset_le : offset ≤ position) :
    offset ≤ host.roundDownToPageSize position := by
  obtain ⟨page, rfl⟩ := aligned
  have divided : page ≤ position / host.getPageSize := by
    rwa [le_div_iff_mul_le host.getPageSize_pos, mul_comm]
  have scaled := mul_le_mul_left host.getPageSize divided
  have split := div_add_mod position host.getPageSize
  rw [host.roundDownToPageSize_eq]
  omega

namespace FastLogSink

/-- The place of the current address in the file. -/
def position (sink : FastLogSink) : Nat := sink.mapOffset + (sink.curAddr - sink.beginAddr)

/-- A window is mapped, and the file ends one byte behind it. -/
structure Windowed (host : LogHost) (sink : FastLogSink) : Prop where
  opened : ∃ fd, sink.logFd = some fd
  beginAddr : sink.beginAddr ≠ 0
  begin_le : sink.beginAddr ≤ sink.curAddr
  endAddr : sink.endAddr = sink.beginAddr + host.mapTrunkSize
  aligned : host.getPageSize ∣ sink.mapOffset
  length : sink.file.length = sink.mapOffset + host.mapTrunkSize + 1

/-- A sink whose window starts at the page of a position. -/
structure Remapped (host : LogHost) (position : Nat) (sink : FastLogSink) : Prop
    extends Windowed host sink where
  position_eq : sink.position = position
  mapOffset : sink.mapOffset = host.roundDownToPageSize position

section

variable {host : LogHost} {opts : LoggingSettings} {sink made : FastLogSink} {length : Nat}

theorem remapped_adjustFileMap (opened : ∃ fd, sink.logFd = some fd) {position : Nat}
    (curPos_eq : (if sink.beginAddr ≠ 0 ∧ sink.endAddr ≠ 0 then
      (sink.file.length : Int) - ((sink.endAddr : Int) - sink.curAddr)
      else sink.file.length) = position) : Remapped host position (adjustFileMap host sink) := by
  have rounded := host.roundDownToPageSize_eq position
  rw [adjustFileMap]
  simp only [curPos_eq, Int.toNat_natCast]
  refine ⟨⟨opened, host.mmap_ne _, le_add_right _ _, rfl, ?_, ?_⟩, ?_, rfl⟩
  · simp only
    rw [rounded]
    exact dvd_sub_mod _
  · simp only [PaddedFile.resize, length_append, length_take, length_replicate]
    omega
  · simp only [FastLogSink.position]
    omega

theorem Closed.remapped_init (closed : Closed sink) (host : LogHost) (opts : LoggingSettings)
    (fd : Nat) : Remapped host sink.file.length (init host opts (some fd) sink).2 := by
  rw [init, closed.logFd]
  exact remapped_adjustFileMap ⟨fd, rfl⟩ (by simp [closed.beginAddr])

theorem Windowed.remapped (window : Windowed host sink) :
    Remapped host (sink.position + 1) (adjustFileMap host sink) := by
  have beginAddr := window.beginAddr
  have begin_le := window.begin_le
  have endAddr := window.endAddr
  have length := window.length
  refine remapped_adjustFileMap window.opened ?_
  rw [if_pos ⟨beginAddr, by omega⟩, position]
  omega

theorem Windowed.mapOffset_le (window : Windowed host sink) :
    sink.mapOffset ≤ (adjustFileMap host sink).mapOffset := by
  rw [window.remapped.mapOffset]
  exact LogHost.le_roundDownToPageSize window.aligned (by rw [position]; omega)

theorem Remapped.fits_iff {position : Nat} (remapped : Remapped host position sink) :
    sink.curAddr + length ≤ sink.endAddr ↔
      position % host.getPageSize + length ≤ host.mapTrunkSize := by
  have begin_le := remapped.begin_le
  have endAddr := remapped.endAddr
  have position_eq := remapped.position_eq
  have mapOffset := remapped.mapOffset
  have mod_le := mod_le position host.getPageSize
  rw [host.roundDownToPageSize_eq] at mapOffset
  rw [FastLogSink.position] at position_eq
  omega

theorem Windowed.copy (window : Windowed host sink) {log : List UInt8}
    (fits : sink.curAddr + log.length ≤ sink.endAddr) :
    Windowed host (copy log sink) := by
  have begin_le := window.begin_le
  have endAddr := window.endAddr
  have length := window.length
  refine ⟨window.opened, window.beginAddr, ?_, window.endAddr, window.aligned, ?_⟩
  · simp only [FastLogSink.copy]
    omega
  · simp only [FastLogSink.copy, PaddedFile.overwrite, length_append, length_take, length_drop]
    omega

theorem makeRoom_succ (fuel : Nat) : makeRoom host length (fuel + 1) sink =
      if sink.curAddr + length ≤ sink.endAddr then some sink
      else makeRoom host length fuel (adjustFileMap host sink) := by
  rw [makeRoom]
  split
  · next full => rw [if_neg (not_le.mpr full)]
  · next fits => rw [if_pos (not_lt.mp fits)]

theorem makeRoom_zero : makeRoom host length 0 sink =
      if sink.curAddr + length ≤ sink.endAddr then some sink else none := by
  rw [makeRoom]
  split
  · next full => rw [if_neg (not_le.mpr full)]
  · next fits => rw [if_pos (not_lt.mp fits)]

section

variable (window : Windowed host sink)
include window

theorem Windowed.makeRoom {fuel : Nat} (made_eq : makeRoom host length fuel sink = some made) :
    Windowed host made ∧ made.curAddr + length ≤ made.endAddr ∧
      sink.mapOffset ≤ made.mapOffset := by
  induction fuel generalizing sink with
  | zero =>
    rw [makeRoom_zero] at made_eq
    obtain ⟨fits, same⟩ := ite_none_right_eq_some.mp made_eq
    obtain rfl := some.inj same
    exact ⟨window, fits, le_refl _⟩
  | succ fuel ih =>
    rw [makeRoom_succ] at made_eq
    split at made_eq
    · next fits =>
      obtain rfl := some.inj made_eq
      exact ⟨window, fits, le_refl _⟩
    · obtain ⟨made_windowed, fits, later⟩ := ih window.remapped.toWindowed made_eq
      exact ⟨made_windowed, fits, window.mapOffset_le.trans later⟩

theorem Windowed.exists_makeRoom (length_le : length ≤ host.mapTrunkSize) {steps : Nat}
    (boundary : host.getPageSize ∣ sink.position + steps + 1) :
    ∃ made, FastLogSink.makeRoom host length (steps + 1) sink = some made := by
  induction steps generalizing sink with
  | zero =>
    have fits := window.remapped.fits_iff.mpr
      (show (sink.position + 1) % host.getPageSize + length ≤ host.mapTrunkSize by
        rw [mod_eq_zero_of_dvd boundary]
        omega)
    rw [makeRoom_succ, makeRoom_zero, if_pos fits]
    split <;> exact ⟨_, rfl⟩
  | succ steps ih =>
    rw [makeRoom_succ]
    split
    · exact ⟨_, rfl⟩
    · refine ih window.remapped.toWindowed ?_
      rw [window.remapped.position_eq]
      convert boundary using 1
      omega

theorem Windowed.exists_makeRoom_iff :
    (∃ fuel made, FastLogSink.makeRoom host length fuel sink = some made) ↔
      length ≤ host.mapTrunkSize := by
  constructor
  · rintro ⟨fuel, made, made_eq⟩
    obtain ⟨made_windowed, fits, -⟩ := window.makeRoom made_eq
    have begin_le := made_windowed.begin_le
    have endAddr := made_windowed.endAddr
    omega
  · intro length_le
    obtain ⟨steps, -, boundary⟩ := exists_boundary host sink.position
    exact ⟨steps + 1, window.exists_makeRoom length_le boundary⟩

theorem Windowed.makeRoom_one_iff : (∃ made, FastLogSink.makeRoom host length 1 sink = some made) ↔
      sink.curAddr + length ≤ sink.endAddr ∨
        (sink.position + 1) % host.getPageSize + length ≤ host.mapTrunkSize := by
  rw [makeRoom_succ, makeRoom_zero, ← window.remapped.fits_iff]
  split
  · next fits => simp [fits]
  · next full => simp [full]

theorem Windowed.shown (stderr : List UInt8) : Windowed host { sink with stderr } :=
  ⟨window.opened, window.beginAddr, window.begin_le, window.endAddr, window.aligned,
    window.length⟩

theorem Windowed.onLogMessage_eq (toFile : opts.ToFile) (fuel : Nat) (call : LogCall) :
    onLogMessage host opts fuel sink call =
      (FastLogSink.makeRoom host call.logContent.length fuel
        { sink with stderr := sink.stderr ++ opts.debugLog call.logContent }).map
          (FastLogSink.copy call.logContent) := by
  obtain ⟨fd, opened⟩ :=
    (window.shown (sink.stderr ++ opts.debugLog call.logContent)).opened
  rw [onLogMessage, if_pos toFile, init_of_opened opened]
  rfl

theorem Windowed.onLogMessage (toFile : opts.ToFile) {fuel : Nat} {call : LogCall}
    {after : FastLogSink} (returned : onLogMessage host opts fuel sink call = some after) :
    Windowed host after := by
  rw [window.onLogMessage_eq toFile] at returned
  obtain ⟨made, made_eq, rfl⟩ := map_eq_some_iff.mp returned
  obtain ⟨made_windowed, fits, -⟩ := (window.shown _).makeRoom made_eq
  exact made_windowed.copy fits

theorem Windowed.run (toFile : opts.ToFile) {fuel : Nat}
    {calls : List LogCall} {after : FastLogSink}
    (ran : calls.foldlM (FastLogSink.onLogMessage host opts fuel) sink = some after) :
    Windowed host after := by
  induction calls generalizing sink with
  | nil =>
    obtain rfl := some.inj ran
    exact window
  | cons call calls ih =>
    obtain ⟨next, returned, ran⟩ := bind_eq_some_iff.mp ran
    exact ih (window.onLogMessage toFile returned) ran

end

/-- After any calls, the next one returns exactly when its message is not longer than a window, and
with one remapping at most exactly when the message fits the rest of the window or the window at the
page of the next position. -/
theorem onLogMessage_returns_iff (host : LogHost) {settings : LoggingSettings}
    (toFile : settings.ToFile) {after : FastLogSink} (closed : Closed sink) (fd fuel : Nat)
    (calls : List LogCall) (ran : calls.foldlM (FastLogSink.onLogMessage host settings fuel)
      (init host settings (some fd) sink).2 = some after) (call : LogCall) :
    ((∃ fuel next, FastLogSink.onLogMessage host settings fuel after call = some next) ↔
      call.logContent.length ≤ host.mapTrunkSize) ∧
    ((∃ next, FastLogSink.onLogMessage host settings 1 after call = some next) ↔
      after.curAddr + call.logContent.length ≤ after.endAddr ∨
        (after.position + 1) % host.getPageSize + call.logContent.length ≤
          host.mapTrunkSize) := by
  have windowed := (closed.remapped_init host settings fd).toWindowed.run toFile ran
  have shown := windowed.shown (after.stderr ++ settings.debugLog call.logContent)
  simp only [windowed.onLogMessage_eq toFile, map_eq_some_iff, ↓existsAndEq, and_true]
  exact ⟨shown.exists_makeRoom_iff, shown.makeRoom_one_iff⟩

/-- Every `ftruncate` of the loop keeps so many bytes of the file. -/
def LoopKeeps (host : LogHost) (length extent : Nat) : Nat → FastLogSink → Prop
  | 0, _ => True
  | fuel + 1, sink => sink.endAddr < sink.curAddr + length →
      extent ≤ (adjustFileMap host sink).file.length ∧
        LoopKeeps host length extent fuel (adjustFileMap host sink)

/-- A copy to the current address stays in the mapping and in the file. -/
structure CopiesInside (host : LogHost) (length : Nat) (sink : FastLogSink) : Prop where
  begin_le : sink.beginAddr ≤ sink.curAddr
  mapping : sink.curAddr + length ≤ sink.beginAddr + host.mapTrunkSize
  file : sink.position + length ≤ sink.file.length

/-- The calls copy inside of the mapping and the file and cut off nothing of the first bytes of the
file, which grow with every copy. -/
def Safe (host : LogHost) (fuel : Nat) : Nat → FastLogSink → List LogCall → Prop
  | _, _, [] => True
  | extent, sink, call :: calls =>
    LoopKeeps host call.logContent.length extent fuel sink ∧
      ∀ made ∈ FastLogSink.makeRoom host call.logContent.length fuel sink,
        CopiesInside host call.logContent.length made ∧
          Safe host fuel (max extent (made.position + call.logContent.length))
            (FastLogSink.copy call.logContent made) calls

theorem Windowed.loopKeeps (window : Windowed host sink) {extent : Nat}
    (extent_le : extent ≤ sink.file.length) (fuel : Nat) :
    LoopKeeps host length extent fuel sink := by
  induction fuel generalizing sink with
  | zero => trivial
  | succ fuel ih =>
    intro _
    have kept : extent ≤ (adjustFileMap host sink).file.length := by
      have later := window.mapOffset_le
      have length_eq := window.length
      have length_eq' := window.remapped.length
      omega
    exact ⟨kept, ih window.remapped.toWindowed kept⟩

theorem Windowed.safe (window : Windowed host sink) {extent : Nat}
    (extent_le : extent ≤ sink.file.length) (fuel : Nat) (calls : List LogCall) :
    Safe host fuel extent sink calls := by
  induction calls generalizing sink extent with
  | nil => trivial
  | cons call calls ih =>
    refine ⟨window.loopKeeps extent_le fuel, fun made made_eq => ?_⟩
    obtain ⟨made_windowed, fits, later⟩ := window.makeRoom made_eq
    have copied := made_windowed.copy fits
    have begin_le := made_windowed.begin_le
    have endAddr := made_windowed.endAddr
    have length_eq := window.length
    have made_length := made_windowed.length
    have copied_length := copied.length.trans made_length.symm
    refine ⟨⟨begin_le, by omega, by rw [position]; omega⟩, ih copied ?_⟩
    rw [copied_length, position]
    omega

/-- No copy leaves the mapping or the file and no `ftruncate` cuts off what was written or what was
in the file before, exactly when the file reaches no further than one byte behind the window at its
last page. -/
theorem safe_iff (host : LogHost) (settings : LoggingSettings) (closed : Closed sink)
    (fd fuel : Nat) (calls : List LogCall) :
    (sink.file.length ≤ (init host settings (some fd) sink).2.file.length ∧
        Safe host fuel sink.file.length (init host settings (some fd) sink).2 calls) ↔
      sink.file.length % host.getPageSize ≤ host.mapTrunkSize + 1 := by
  have remapped := closed.remapped_init host settings fd
  have kept : sink.file.length ≤ (init host settings (some fd) sink).2.file.length ↔
      sink.file.length % host.getPageSize ≤ host.mapTrunkSize + 1 := by
    have mod_le := mod_le sink.file.length host.getPageSize
    rw [remapped.length, remapped.mapOffset, host.roundDownToPageSize_eq]
    omega
  rw [← kept]
  exact and_iff_left_of_imp fun enough => remapped.toWindowed.safe enough fuel calls

end

/-- Behind six bytes in windows and pages of eight, a message of five bytes needs the window of the
next page, and returns. -/
theorem onLogMessage_returns_remapped :
    ∃ after, onLogMessage { pagedHost with pageShift := 3, mapTrunkSize := 8 } fileSettings 0
        (init { pagedHost with pageShift := 3, mapTrunkSize := 8 } fileSettings (some 3)
          emptySink).2 ⟨none, .replicate 6 97⟩ = some after ∧
      after.endAddr < after.curAddr + 5 ∧
      ∃ fuel next, onLogMessage { pagedHost with pageShift := 3, mapTrunkSize := 8 } fileSettings
        fuel after ⟨none, .replicate 5 98⟩ = some next := by
  refine ⟨_, rfl, by decide, ?_⟩
  exact (onLogMessage_returns_iff { pagedHost with pageShift := 3, mapTrunkSize := 8 }
    toFile_fileSettings closed_emptySink 3 0 [⟨none, .replicate 6 97⟩] rfl
    ⟨none, .replicate 5 98⟩).1.mpr (by decide)

/-- A message of 5000 bytes does not return with windows of 4 kB. -/
theorem onLogMessage_loops : ¬∃ fuel next, onLogMessage pagedHost fileSettings fuel
      (init pagedHost fileSettings (some 3) emptySink).2 ⟨none, List.replicate 5000 97⟩ =
        some next := by
  rintro ⟨fuel, next, returned⟩
  have windowed := (closed_emptySink.remapped_init pagedHost fileSettings 3).toWindowed
  rw [windowed.onLogMessage_eq toFile_fileSettings] at returned
  obtain ⟨made, made_eq, -⟩ := map_eq_some_iff.mp returned
  have short := (windowed.shown _).exists_makeRoom_iff.mp ⟨fuel, made, made_eq⟩
  simp [pagedHost, -List.reduceReplicate] at short

theorem safe_emptySink :
    Safe pagedHost 4096 0 (init pagedHost fileSettings (some 3) emptySink).2 fillingCalls :=
  ((safe_iff pagedHost fileSettings closed_emptySink 3 4096 fillingCalls).mpr (by decide)).2

def oldLog : FastLogSink := { emptySink with file := List.replicate 5000 97 }

/-- With pages of 64 kB and the default flag, `Init` cuts an old log of 5000 bytes off. -/
theorem length_init_oldLog :
    (init { pagedHost with pageShift := 16 } fileSettings (some 3) oldLog).2.file.length = 4097 ∧
      oldLog.file.length = 5000 := by
  have closed : Closed oldLog := ⟨rfl, rfl⟩
  have remapped := closed.remapped_init { pagedHost with pageShift := 16 } fileSettings 3
  have length_eq : oldLog.file.length = 5000 := length_replicate
  refine ⟨?_, length_eq⟩
  rw [remapped.length, remapped.mapOffset, length_eq]
  decide

end FastLogSink
end McBrpc
