import McBrpc.LbStat.StrategyRound

/-!
# Strategy rounds with crashes

The name agent may be killed between any two writes to the shared memory; the segment stays, and
the next agent attaches to it without clearing it.  A round relies on an empty backup board, which
only the end of the round before provides.
-/

namespace McBrpc

open MultiLevelHash Execution Function List StrategySegment HashSlot KeyedMap

namespace DefaultStrategyGenerator

variable (env : RoundEnv) (hash : MultiLevelHash)

/-- The writes to slots of a board, one after another. -/
def writeSlots (slots : Nat → StrategyShmInfo) (writes : List (Nat × StrategyShmInfo)) :
    Nat → StrategyShmInfo :=
  writes.foldl (fun slots write => update slots write.1 write.2) slots

def insertWrites (backup : Nat → StrategyShmInfo) (info : StrategyShmInfo) :
    List (Nat × StrategyShmInfo) :=
  match (hash.insert backup info).2 with
  | some slot => [(slot, info)]
  | none => []

def carryOverWrites (shmInfo : StrategyShmInfo) (backup : Nat → StrategyShmInfo) :
    List (Nat × StrategyShmInfo) :=
  if env.now < shmInfo.strategyTime + env.maxLbStrategyLiveTimeS then
    insertWrites hash backup shmInfo
  else []

/-- The entry is copied, then its three fields are set. -/
def refreshWrites (stats : ServerStats) (info : StrategyShmInfo) (slot : Nat) :
    List (Nat × StrategyShmInfo) :=
  let counted := { info with curReqCnt := stats.totalReqCnt }
  let rated := { counted with passRate := toShort stats.curPassRate }
  [(slot, info), (slot, counted), (slot, rated), (slot, { rated with strategyTime := env.now })]

def rebuildSlotWrites (state : RoundState) (shmInfo : StrategyShmInfo) :
    List (Nat × StrategyShmInfo) :=
  if shmInfo.keyLen = 0 then []
  else
    match shmInfo.key2EndPoint with
    | .error _ => []
    | .ok ep =>
      match state.1.find? (endpoint2str ep) with
      | some stats =>
        if stats.totalReqCnt ≠ 0 then
          match hash.insert state.2 shmInfo with
          | (_, some slot) => refreshWrites env stats shmInfo slot
          | (backup, none) => carryOverWrites env hash shmInfo backup
        else carryOverWrites env hash shmInfo state.2
      | none => carryOverWrites env hash shmInfo state.2

def rebuildWrites (cur : Nat → StrategyShmInfo) :
    List Nat → RoundState → List (Nat × StrategyShmInfo)
  | [], _ => []
  | k :: ks, state =>
    rebuildSlotWrites env hash state (cur k) ++
      rebuildWrites cur ks (rebuildSlot env hash state (cur k))

/-- The writes of the loop over the remaining statistics. -/
def insertFreshWrites : List (Σ _ : String, ServerStats) → RoundState →
    List (Nat × StrategyShmInfo)
  | [], _ => []
  | it :: its, state =>
    (if it.2.totalReqCnt ≠ 0 then insertWrites hash state.2 (freshEntry env it.2) else []) ++
      insertFreshWrites its (insertFresh env hash state it)

/-- The writes to the backup board before the boards are switched. -/
def backupWrites (cur : Nat → StrategyShmInfo) (statMap : StatMap)
    (backup : Nat → StrategyShmInfo) : List (Nat × StrategyShmInfo) :=
  rebuildWrites env hash cur (range (slotNum hash.levels)) (statMap, backup) ++
    insertFreshWrites env hash (rebuilt env hash cur statMap backup).1.entries
      (rebuilt env hash cur statMap backup)

theorem writeSlots_append (slots : Nat → StrategyShmInfo)
    (first second : List (Nat × StrategyShmInfo)) :
    writeSlots slots (first ++ second) = writeSlots (writeSlots slots first) second :=
  foldl_append

theorem writeSlots_insertWrites (backup : Nat → StrategyShmInfo) (info : StrategyShmInfo) :
    writeSlots backup (insertWrites hash backup info) = (hash.insert backup info).1 := by
  rcases hash.insert_cases backup info with ⟨slot, ins⟩ | full
  · rw [insertWrites, ins]
    rfl
  · rw [insertWrites, full]
    rfl

theorem writeSlots_carryOverWrites (info : StrategyShmInfo) (backup : Nat → StrategyShmInfo) :
    writeSlots backup (carryOverWrites env hash info backup) = carryOver env hash info backup := by
  rw [carryOverWrites, carryOver]
  split
  · exact writeSlots_insertWrites hash backup info
  · rfl

theorem writeSlots_rebuildSlotWrites (state : RoundState)
    (info : StrategyShmInfo) :
    writeSlots state.2 (rebuildSlotWrites env hash state info) =
      (rebuildSlot env hash state info).2 := by
  rw [rebuildSlotWrites, rebuildSlot]
  split
  · rfl
  · cases info.key2EndPoint with
    | error code => rfl
    | ok ep =>
      dsimp only
      cases state.1.find? (endpoint2str ep) with
      | none => exact writeSlots_carryOverWrites env hash info state.2
      | some stats =>
        by_cases counted : stats.totalReqCnt ≠ 0
        · simp only [if_pos counted]
          rcases hash.insert_cases state.2 info with ⟨slot, ins⟩ | full
          · rw [ins]
            simp [writeSlots, refreshWrites, refresh]
          · rw [full]
            exact writeSlots_carryOverWrites env hash info state.2
        · simp only [if_neg counted]
          exact writeSlots_carryOverWrites env hash info state.2

theorem writeSlots_rebuildWrites (cur : Nat → StrategyShmInfo) (order : List Nat)
    (state : RoundState) :
    writeSlots state.2 (rebuildWrites env hash cur order state) =
      (rebuildSlots env hash cur order state).2 := by
  induction order generalizing state with
  | nil => rfl
  | cons k ks ih =>
    rw [rebuildWrites, writeSlots_append, writeSlots_rebuildSlotWrites, ih]
    rfl

theorem writeSlots_insertFreshWrites (its : List (Σ _ : String, ServerStats))
    (state : RoundState) :
    writeSlots state.2 (insertFreshWrites env hash its state) =
      (its.foldl (insertFresh env hash) state).2 := by
  induction its generalizing state with
  | nil => rfl
  | cons it its ih =>
    have here : writeSlots state.2
        (if it.2.totalReqCnt ≠ 0 then insertWrites hash state.2 (freshEntry env it.2) else []) =
        (insertFresh env hash state it).2 := by
      rw [insertFresh]
      split
      · exact writeSlots_insertWrites hash state.2 _
      · rfl
    rw [insertFreshWrites, writeSlots_append, here, ih]
    rfl

theorem writeSlots_backupWrites (cur : Nat → StrategyShmInfo) (stats : StatMap)
    (backup : Nat → StrategyShmInfo) :
    writeSlots backup (backupWrites env hash cur stats backup) =
      published env hash cur stats backup := by
  rw [backupWrites, writeSlots_append]
  rw [show writeSlots backup _ = _ from
    writeSlots_rebuildWrites env hash cur (range (slotNum hash.levels)) (stats, backup)]
  exact writeSlots_insertFreshWrites env hash _ _

/-- The inputs of a round and the board that is current when it starts. -/
structure Round where
  env : RoundEnv
  statMap : StatMap
  before : Nat → StrategyShmInfo

/-- The entry is computed from the statistics of the round. -/
def Round.Computes (round : Round) (info : StrategyShmInfo) : Prop :=
  ∃ text stats, round.statMap.find? text = some stats ∧ stats.totalReqCnt ≠ 0 ∧
    ((∃ slot < slotNum hash.levels, text = entryText (round.before slot) ∧
        info = refresh round.env stats (round.before slot)) ∨
      info = freshEntry round.env stats)

/-- The entry is carried over, unexpired, from the board before. -/
def Round.Carries (round : Round) (info : StrategyShmInfo) : Prop :=
  round.env.now < info.strategyTime + round.env.maxLbStrategyLiveTimeS ∧
    ∃ slot < slotNum hash.levels, round.before slot = info

/-- Every entry on the board is computed or carried over by the round. -/
def Round.Justifies (round : Round) (slots : Nat → StrategyShmInfo) : Prop :=
  ∀ slot < slotNum hash.levels, (slots slot).keyLen ≠ 0 →
    round.Computes hash (slots slot) ∨ round.Carries hash (slots slot)

variable {hash} {round : Round} {slots : Nat → StrategyShmInfo}

section

variable (justifies : round.Justifies hash slots)
include justifies

theorem Round.Justifies.update {info : StrategyShmInfo}
    (justified : round.Computes hash info ∨ round.Carries hash info) (place : Nat) :
    round.Justifies hash (update slots place info) := by
  intro slot inside occupied
  by_cases same : slot = place
  · subst same
    rw [update_self]
    exact justified
  · rw [update_of_ne same] at occupied ⊢
    exact justifies slot inside occupied

theorem Round.Justifies.insert {info : StrategyShmInfo}
    (justified : round.Computes hash info ∨ round.Carries hash info) :
    round.Justifies hash (hash.insert slots info).1 := by
  rcases hash.insert_cases slots info with ⟨slot, ins⟩ | full
  · rw [ins]
    exact justifies.update justified slot
  · rw [full]
    exact justifies

theorem Round.Justifies.carryOver {slot : Nat} (inside : slot < slotNum hash.levels) :
    round.Justifies hash (carryOver round.env hash (round.before slot) slots) := by
  rw [DefaultStrategyGenerator.carryOver]
  split
  · next unexpired => exact justifies.insert (.inr ⟨unexpired, slot, inside, rfl⟩)
  · exact justifies

end

/-- The statistics are some of those of the round. -/
def Round.Supplies (round : Round) (statMap : StatMap) : Prop :=
  ∀ text stats, statMap.find? text = some stats → round.statMap.find? text = some stats

theorem Round.Supplies.erase {statMap : StatMap} (supplies : round.Supplies statMap)
    (text : String) : round.Supplies (statMap.erase text) := by
  intro other stats found
  rw [find?_erase] at found
  split at found
  · simp at found
  · exact supplies other stats found

theorem Round.Justifies.rebuildSlot {state : RoundState}
    (supplies : round.Supplies state.1) (justifies : round.Justifies hash state.2) {slot : Nat}
    (inside : slot < slotNum hash.levels) :
    round.Supplies (rebuildSlot round.env hash state (round.before slot)).1 ∧
      round.Justifies hash (rebuildSlot round.env hash state (round.before slot)).2 := by
  obtain ⟨statMap, backup⟩ := state
  have carried := justifies.carryOver inside
  by_cases vacant : (round.before slot).keyLen = 0
  · rw [DefaultStrategyGenerator.rebuildSlot, if_pos vacant]
    exact ⟨supplies, justifies⟩
  · cases found : statMap.find? (entryText (round.before slot)) with
    | none =>
      rw [rebuildSlot_of_missing round.env vacant found]
      exact ⟨supplies, carried⟩
    | some stats =>
      have given := supplies _ stats found
      rw [entryText] at found
      simp only [DefaultStrategyGenerator.rebuildSlot, if_neg vacant,
        (round.before slot).key2EndPoint_eq vacant, found]
      split
      · next counted =>
        have computed : round.Computes hash (refresh round.env stats (round.before slot)) :=
          ⟨_, stats, given, counted, .inl ⟨slot, inside, rfl, rfl⟩⟩
        rcases hash.insert_cases backup (round.before slot) with ⟨place, ins⟩ | full
        · rw [ins]
          refine ⟨supplies.erase _, ?_⟩
          simp only [update_self, update_idem]
          exact justifies.update (.inl computed) place
        · rw [full]
          exact ⟨supplies.erase _, carried⟩
      · exact ⟨supplies.erase _, carried⟩

theorem Round.justifies_published {backup : Nat → StrategyShmInfo}
    (vacant : ∀ slot < slotNum hash.levels, (backup slot).keyLen = 0) :
    round.Justifies hash (published round.env hash round.before round.statMap backup) := by
  have rebuilt_justified : round.Supplies
        (rebuilt round.env hash round.before round.statMap backup).1 ∧
      round.Justifies hash (rebuilt round.env hash round.before round.statMap backup).2 := by
    refine foldl_invariant (fun state : RoundState =>
      round.Supplies state.1 ∧ round.Justifies hash state.2)
      (range (slotNum hash.levels)) ⟨fun _ _ found => found, ?_⟩ ?_
    · intro slot inside occupied
      exact absurd (vacant slot inside) occupied
    · rintro state slot mem ⟨supplies, justifies⟩
      exact Round.Justifies.rebuildSlot supplies justifies (mem_range.mp mem)
  obtain ⟨supplies, justifies⟩ := rebuilt_justified
  refine foldl_invariant (fun state : RoundState =>
    round.Justifies hash state.2) _ justifies ?_
  rintro state ⟨text, stats⟩ it_mem justifies
  have given := supplies text stats ((mem_entries_iff _ _ _).mp it_mem)
  rw [insertFresh]
  split
  · next counted => exact justifies.insert (.inl ⟨text, stats, given, counted, .inr rfl⟩)
  · exact justifies

end DefaultStrategyGenerator

open DefaultStrategyGenerator

namespace StrategySegment

def current (segment : StrategySegment) : Nat → StrategyShmInfo :=
  segment.body segment.head.curShmboardIdx

def backup (segment : StrategySegment) : Nat → StrategyShmInfo :=
  segment.body (segment.head.curShmboardIdx + 1)

/-- A write to a slot of the board that is not read. -/
def writeBackup (segment : StrategySegment) (slot : Nat) (info : StrategyShmInfo) :
    StrategySegment :=
  { segment with
    body := update segment.body (segment.head.curShmboardIdx + 1)
      (update segment.backup slot info) }

/-- Writes to the board that is not read, one after another. -/
def writeAll (segment : StrategySegment) (writes : List (Nat × StrategyShmInfo)) :
    StrategySegment :=
  writes.foldl (fun segment write => segment.writeBackup write.1 write.2) segment

/-- The write to `cur_shmboard_idx`. -/
def switch (segment : StrategySegment) : StrategySegment :=
  { segment with
    head := { segment.head with curShmboardIdx := segment.head.curShmboardIdx + 1 } }

variable (seg : StrategySegment)
include seg

@[simp]
theorem current_writeBackup (slot : Nat) (info : StrategyShmInfo) :
    (seg.writeBackup slot info).current = seg.current :=
  update_of_ne (other_board_ne _).symm _ _

@[simp]
theorem backup_writeBackup (slot : Nat) (info : StrategyShmInfo) :
    (seg.writeBackup slot info).backup = update seg.backup slot info :=
  update_self _ _ _

section

variable (writes : List (Nat × StrategyShmInfo))
include writes

@[simp]
theorem head_writeAll : (seg.writeAll writes).head = seg.head := by
  induction writes generalizing seg with
  | nil => rfl
  | cons write writes ih => exact ih (seg.writeBackup write.1 write.2)

theorem current_writeAll : (seg.writeAll writes).current = seg.current := by
  induction writes generalizing seg with
  | nil => rfl
  | cons write writes ih =>
    exact (ih (seg.writeBackup write.1 write.2)).trans (current_writeBackup _ _ _)

theorem backup_writeAll : (seg.writeAll writes).backup = writeSlots seg.backup writes := by
  induction writes generalizing seg with
  | nil => rfl
  | cons write writes ih =>
    refine (ih (seg.writeBackup write.1 write.2)).trans ?_
    rw [backup_writeBackup]
    rfl

end

@[simp]
theorem current_switch : seg.switch.current = seg.backup := rfl

end StrategySegment

inductive AgentPhase
  | down
  | idle
  | filling (round : Round) (writes : List (Nat × StrategyShmInfo))
  | resetting (slots : List Nat)

/-- The segment, the agent and the round that has published the current board. -/
structure Agent where
  segment : StrategySegment
  phase : AgentPhase
  publisher : Option Round

/-- A step of the agent: it is started, begins a round, makes its next write or is killed. -/
inductive AgentAction
  | start
  | updateStrategy (env : RoundEnv) (statMap : StatMap)
  | write
  | kill

namespace Agent

/-- A segment as the system creates it, and no agent. -/
def initial : Agent := ⟨⟨⟨0, 0⟩, fun _ _ => zero⟩, .down, none⟩

variable (hash : MultiLevelHash)

def step (agent : Agent) : AgentAction → Agent
  | .start =>
    match agent.phase with
    | .down =>
      { segment := attachAndCreateShm agent.segment
        phase := .idle
        publisher :=
          if agent.segment.head.magicNum ≠ lbStrategyShmMagic then none else agent.publisher }
    | _ => agent
  | .updateStrategy env statMap =>
    match agent.phase with
    | .idle =>
      { agent with
        phase := .filling ⟨env, statMap, agent.segment.current⟩
          (backupWrites env hash agent.segment.current statMap agent.segment.backup) }
    | _ => agent
  | .write =>
    match agent.phase with
    | .filling round ((slot, info) :: writes) =>
      { agent with
        segment := agent.segment.writeBackup slot info
        phase := .filling round writes }
    | .filling round [] =>
      { segment := agent.segment.switch
        phase := .resetting (range (slotNum hash.levels))
        publisher := some round }
    | .resetting (slot :: slots) =>
      { agent with
        segment := agent.segment.writeBackup slot zero
        phase := .resetting slots }
    | .resetting [] => { agent with phase := .idle }
    | _ => agent
  | .kill => { agent with phase := .down }

/-- The current board holds only entries that the round which published it computed or carried
over; before the first round it is empty. -/
def CurrentJustified (agent : Agent) : Prop :=
  match agent.publisher with
  | none => ∀ slot < slotNum hash.levels, (agent.segment.current slot).keyLen = 0
  | some round => round.Justifies hash agent.segment.current

/-- No entry is on the board that is not read. -/
def BackupEmpty (agent : Agent) : Prop :=
  ∀ slot < slotNum hash.levels, (agent.segment.backup slot).keyLen = 0

/-- What holds between the writes of a round that no kill has interrupted. -/
def Sound (agent : Agent) : Prop :=
  agent.CurrentJustified hash ∧
    match agent.phase with
    | .down | .idle => agent.BackupEmpty hash
    | .filling round writes =>
      ∃ backup : Nat → StrategyShmInfo,
        (∀ slot < slotNum hash.levels, (backup slot).keyLen = 0) ∧
        writeSlots agent.segment.backup writes =
          published round.env hash round.before round.statMap backup
    | .resetting slots =>
      ∀ slot < slotNum hash.levels, slot ∉ slots → (agent.segment.backup slot).keyLen = 0

variable {slot : Nat} {agent : Agent}

theorem writeSlots_zero (board : Nat → StrategyShmInfo) {slots : List Nat}
    (zeroed : slot ∈ slots ∨ board slot = zero) :
    writeSlots board (slots.map fun slot => (slot, zero)) slot = zero := by
  induction slots generalizing board with
  | nil => exact zeroed.resolve_left not_mem_nil
  | cons first rest ih =>
    refine ih (update board first zero) ?_
    by_cases same : slot = first
    · right
      rw [same, update_self]
    · rw [update_of_ne same]
      exact zeroed.imp_left fun mem => (mem_cons.mp mem).resolve_left same

theorem foldl_write_filling (seg : StrategySegment) (round : Round)
    (writes : List (Nat × StrategyShmInfo)) (publisher : Option Round) :
    (replicate writes.length .write).foldl (step hash)
        ⟨seg, .filling round writes, publisher⟩ =
      ⟨seg.writeAll writes, .filling round [], publisher⟩ := by
  induction writes generalizing seg with
  | nil => rfl
  | cons write writes ih => exact ih (seg.writeBackup write.1 write.2)

theorem foldl_write_resetting (seg : StrategySegment) (slots : List Nat)
    (publisher : Option Round) :
    (replicate (slots.length + 1) .write).foldl (step hash)
        ⟨seg, .resetting slots, publisher⟩ =
      ⟨seg.writeAll (slots.map fun slot => (slot, zero)), .idle, publisher⟩ := by
  induction slots generalizing seg with
  | nil => rfl
  | cons slot slots ih => exact ih (seg.writeBackup slot zero)

/-- A round whose writes are all made leaves the segment as `updateStrategy` does. -/
theorem foldl_write_updateStrategy {hash : MultiLevelHash} (ready : hash.Ready StrategyShmInfo)
    (seg : StrategySegment) (publisher : Option Round) (env : RoundEnv) (stats : StatMap) :
    ∃ count finished, (.updateStrategy env stats :: replicate count .write).foldl
        (step hash) ⟨seg, .idle, publisher⟩ =
          ⟨finished, .idle, some ⟨env, stats, seg.current⟩⟩ ∧
      ∃ shm, updateStrategy env ⟨some seg.head, hash, seg.body⟩ stats = (0, shm, ∅) ∧
        shm.shmHead = some finished.head ∧
        ∀ board, ∀ slot < slotNum hash.levels,
          shm.shmBody board slot = finished.body board slot := by
  let writes := backupWrites env hash seg.current stats seg.backup
  let slots := range (slotNum hash.levels)
  let switched := (seg.writeAll writes).switch
  let finished := switched.writeAll (slots.map fun slot => (slot, zero))
  have head_eq : finished.head =
      { seg.head with curShmboardIdx := seg.head.curShmboardIdx + 1 } := by
    simp only [finished, switched, switch, head_writeAll]
  refine ⟨writes.length + (slots.length + 1 + 1), finished, ?_, _,
    updateStrategy_eq env rfl ready stats, congrArg some head_eq.symm, ?_⟩
  · rw [foldl_cons, replicate_add, foldl_append]
    have filled := foldl_write_filling hash seg ⟨env, stats, seg.current⟩ writes publisher
    refine (congrArg (foldl _ · _) filled).trans ?_
    exact foldl_write_resetting hash switched slots _
  · intro board slot inside
    have current_eq : finished.current = published env hash seg.current stats
        seg.backup := by
      rw [current_writeAll, current_switch, backup_writeAll, writeSlots_backupWrites]
    have backup_eq : finished.backup slot = zero := by
      rw [backup_writeAll]
      exact writeSlots_zero _ (.inl (mem_range.mpr inside))
    rw [current, head_eq] at current_eq
    rw [backup, head_eq, other_board_other] at backup_eq
    have boards : ∀ cur board : Fin 2, board = cur ∨ board = cur + 1 := by decide
    rcases boards seg.head.curShmboardIdx board with rfl | rfl
    · rw [backup_eq]
      simp only [update_self]
      exact ready.reset_eq_zero _ inside
    · rw [current_eq]
      simp only [update_of_ne (other_board_ne _), update_self]
      rfl

theorem foldl_write_echoStats : ∃ count finished shm,
    (.updateStrategy roundAt100 echoStats :: replicate count .write).foldl
        (step emptyBoards.shmHash) ⟨initial.segment, .idle, none⟩ =
      ⟨finished, .idle, some ⟨roundAt100, echoStats, initial.segment.current⟩⟩ ∧
    updateStrategy roundAt100 emptyBoards echoStats = (0, shm, ∅) ∧
    shm.shmHead = some finished.head := by
  obtain ⟨count, finished, ended, shm, updated, head_eq, -⟩ :=
    foldl_write_updateStrategy ready_emptyBoards initial.segment none roundAt100 echoStats
  exact ⟨count, finished, shm, ended, updated, head_eq⟩

variable {hash}

theorem sound_initial : initial.Sound hash :=
  ⟨fun _ _ => rfl, fun _ _ => rfl⟩

section

variable (sound : agent.Sound hash)
include sound

theorem Sound.start : (agent.step hash .start).Sound hash := by
  obtain ⟨seg, phase, publisher⟩ := agent
  cases phase with
  | down =>
    rw [step]
    by_cases fresh : seg.head.magicNum ≠ lbStrategyShmMagic
    · rw [attachAndCreateShm, if_pos fresh, if_pos fresh]
      exact ⟨fun _ _ => rfl, fun _ _ => rfl⟩
    · rw [attachAndCreateShm, if_neg fresh, if_neg fresh]
      exact sound
  | idle | filling | resetting => exact sound

theorem Sound.updateStrategy (env : RoundEnv) (stats : StatMap)
    : (agent.step hash (.updateStrategy env stats)).Sound hash := by
  obtain ⟨seg, phase, publisher⟩ := agent
  cases phase with
  | idle =>
    obtain ⟨justified, empty⟩ := sound
    exact ⟨justified, seg.backup, empty, writeSlots_backupWrites env hash _ _ _⟩
  | down | filling | resetting => exact sound

theorem Sound.write : (agent.step hash .write).Sound hash := by
  obtain ⟨seg, phase, publisher⟩ := agent
  obtain ⟨justified, progress⟩ := sound
  cases phase with
  | idle | down => exact ⟨justified, progress⟩
  | filling round writes =>
    obtain ⟨backup, empty, writes_eq⟩ := progress
    cases writes with
    | cons write writes =>
      refine ⟨?_, backup, empty, ?_⟩
      · simpa [step, CurrentJustified] using justified
      · simpa [step, writeSlots] using writes_eq
    | nil =>
      constructor
      · show round.Justifies hash seg.backup
        rw [show seg.backup = _ from writes_eq]
        exact Round.justifies_published empty
      · intro slot inside fresh
        exact absurd (mem_range.mpr inside) fresh
  | resetting slots =>
    cases slots with
    | cons slot slots =>
      constructor
      · simpa [step, CurrentJustified] using justified
      · intro other inside mem
        show ((seg.writeBackup slot zero).backup other).keyLen = 0
        rw [backup_writeBackup]
        by_cases same : other = slot
        · subst same
          rw [update_self]
          rfl
        · rw [update_of_ne same]
          exact progress other inside (not_mem_cons_of_ne_of_not_mem same mem)
    | nil => exact ⟨justified, fun slot inside => progress slot inside not_mem_nil⟩

theorem Sound.step {action : AgentAction}
    (safe : action = .kill → agent.BackupEmpty hash) : (agent.step hash action).Sound hash := by
  cases action with
  | start => exact sound.start
  | updateStrategy env stats => exact sound.updateStrategy env stats
  | write => exact sound.write
  | kill => exact ⟨sound.1, safe rfl⟩

end

/-- When the agent is killed only while the backup board is empty, every board that becomes
current holds only what its round computed or carried over. -/
theorem everyState_currentJustified {actions : List AgentAction} (safe : EveryStep (step hash)
      (fun agent action => action = .kill → agent.BackupEmpty hash) initial actions) :
    EveryState (step hash) (CurrentJustified hash) initial actions := by
  have sound := everyState_of_everyStep (Sound hash) sound_initial
    (fun _ _ sound safe => sound.step safe) safe
  intro history isPrefix
  exact (sound history isPrefix).1

/-- An agent that is restarted before its first round, and that round up to its switch. -/
def restartedRound : List AgentAction :=
  [.start, .kill, .start, .updateStrategy roundAt100 echoStats, .write, .write]

theorem everyStep_restartedRound (hash : MultiLevelHash) :
    EveryStep (step hash) (fun agent action => action = .kill → agent.BackupEmpty hash) initial
      restartedRound := by
  simp only [restartedRound, everyStep_cons, everyStep_nil, reduceCtorEq, false_implies, true_and,
    and_true, forall_const]
  intro slot inside
  rfl

theorem everyState_currentJustified_restartedRound :
    EveryState (step (strategyHash 1)) (CurrentJustified (strategyHash 1)) initial
      restartedRound :=
  everyState_currentJustified (everyStep_restartedRound _)

theorem rebuildSlots_of_vacant (env : RoundEnv) (hash : MultiLevelHash)
    {cur : Nat → StrategyShmInfo} {order : List Nat} (vacant : ∀ k ∈ order, (cur k).keyLen = 0)
    (state : RoundState) :
    rebuildSlots env hash cur order state = state ∧
      rebuildWrites env hash cur order state = [] := by
  induction order with
  | nil => exact ⟨rfl, rfl⟩
  | cons k ks ih =>
    obtain ⟨here, later⟩ := forall_mem_cons.mp vacant
    have skipped : rebuildSlot env hash state (cur k) = state := by simp [rebuildSlot, here]
    constructor
    · rw [rebuildSlots, foldl_cons, skipped]
      exact (ih later).1
    · rw [rebuildWrites, skipped, (ih later).2, rebuildSlotWrites, if_pos here, nil_append]

theorem backupWrites_of_vacant (env : RoundEnv) (hash : MultiLevelHash)
    {cur : Nat → StrategyShmInfo} (vacant : ∀ slot, (cur slot).keyLen = 0) (stats : StatMap)
    (backup : Nat → StrategyShmInfo) :
    backupWrites env hash cur stats backup =
      insertFreshWrites env hash stats.entries (stats, backup) := by
  obtain ⟨slots_eq, writes_eq⟩ := rebuildSlots_of_vacant env hash
    (fun k (_ : k ∈ range (slotNum hash.levels)) => vacant k) (stats, backup)
  rw [backupWrites, rebuilt, writes_eq, slots_eq, nil_append]

/-- The slot of the measured endpoint on an empty board. -/
def echoSlot : Nat :=
  HashLevel.slot ⟨0, 250000⟩ (key (freshEntry roundAt100 ⟨3, 1, 0, 1, 20, "echo", "10.0.0.1", 80⟩))

def echoEntry : StrategyShmInfo :=
  freshEntry roundAt100 ⟨3, 1, 0, 1, 20, "echo", "10.0.0.1", 80⟩

theorem backupWrites_echoStats : backupWrites roundAt100 (strategyHash 1) (fun _ => zero) echoStats
      (fun _ => zero) = [(echoSlot, echoEntry)] := by
  have ins : ((strategyHash 1).insert (fun _ => zero) echoEntry).2 =
      some echoSlot := by
    rw [strategyHash_eq (by decide)]
    simp [MultiLevelHash.insert, insertIn, echoSlot, echoEntry]
  rw [backupWrites_of_vacant _ _ (fun _ => rfl)]
  show insertWrites (strategyHash 1) (fun _ => zero) echoEntry ++ [] = _
  rw [insertWrites, ins, append_nil]

/-- A round that is killed after its first write, and a round without statistics up to its
switch. -/
def killedRound : List AgentAction :=
  [.start, .updateStrategy roundAt100 echoStats, .write, .kill, .start,
    .updateStrategy roundAt100 ∅, .write]

theorem foldl_killedRound {hash : MultiLevelHash} {info : StrategyShmInfo}
    (writes : backupWrites roundAt100 hash (fun _ => zero) echoStats
      (fun _ => zero) = [(slot, info)]) :
    (killedRound.foldl (step hash) initial).segment.current =
        update (fun _ => zero) slot info ∧
      (killedRound.foldl (step hash) initial).publisher =
        some ⟨roundAt100, ∅, fun _ => zero⟩ := by
  let cleared : StrategySegment := ⟨⟨lbStrategyShmMagic, 0⟩, fun _ _ => zero⟩
  have started : step hash initial .start = ⟨cleared, .idle, none⟩ := rfl
  have begun : step hash ⟨cleared, .idle, none⟩ (.updateStrategy roundAt100 echoStats) =
      ⟨cleared, .filling ⟨roundAt100, echoStats, cleared.current⟩ [(slot, info)], none⟩ := by
    rw [← writes]
    rfl
  let written := cleared.writeBackup slot info
  have restarted : step hash ⟨written, .down, none⟩ .start = ⟨written, .idle, none⟩ := rfl
  have empty : backupWrites roundAt100 hash written.current ∅ written.backup = [] := by
    rw [current_writeBackup, backupWrites_of_vacant _ _ (fun _ => rfl)]
    rfl
  have resumed : step hash ⟨written, .idle, none⟩ (.updateStrategy roundAt100 ∅) =
      ⟨written, .filling ⟨roundAt100, ∅, written.current⟩ [], none⟩ := by
    rw [← empty]
    rfl
  have ended : killedRound.foldl (step hash) initial =
      ⟨written.switch, .resetting (range (slotNum hash.levels)),
        some ⟨roundAt100, ∅, written.current⟩⟩ := by
    simp only [killedRound, foldl_cons, foldl_nil]
    rw [started, begun]
    show step hash (step hash (step hash ⟨written, .down, none⟩ .start) _) .write = _
    rw [restarted, resumed]
    rfl
  rw [ended]
  constructor
  · exact backup_writeBackup cleared slot info
  · rw [current_writeBackup]
    rfl

theorem not_currentJustified_killedRound {hash : MultiLevelHash} {info : StrategyShmInfo}
    (writes : backupWrites roundAt100 hash (fun _ => zero) echoStats
      (fun _ => zero) = [(slot, info)]) (inside : slot < slotNum hash.levels)
    (filled : info.keyLen ≠ 0) :
    ¬ CurrentJustified hash (killedRound.foldl (step hash) initial) := by
  intro final
  obtain ⟨current_eq, publisher_eq⟩ := foldl_killedRound writes
  rw [CurrentJustified, publisher_eq] at final
  have justified := final slot inside
  rw [current_eq, update_self] at justified
  rcases justified filled with ⟨text, stats, found, -⟩ | ⟨-, former, -, carried⟩
  · simp at found
  · exact filled (congrArg StrategyShmInfo.keyLen carried).symm

/-- A round without statistics after a killed one publishes the entry of the killed round. -/
theorem not_everyState_currentJustified :
    ¬ ∀ actions, EveryState (step (strategyHash 1)) (CurrentJustified (strategyHash 1)) initial
      actions := by
  have inside : ∀ key, HashLevel.slot ⟨0, 250000⟩ key < slotNum (strategyHash 1).levels := by
    intro key
    have first := bkdrHash_lt (Nat.succ_pos 249999) key
    rw [strategyHash_eq one_ne_zero, slotNum_cons, HashLevel.slot, Nat.zero_add]
    exact Nat.lt_add_right _ first
  have unjustified := not_currentJustified_killedRound backupWrites_echoStats (inside _)
    (Nat.succ_ne_zero 5)
  generalize strategyHash 1 = hash at *
  intro always
  exact unjustified (always killedRound).final

end Agent
end McBrpc
