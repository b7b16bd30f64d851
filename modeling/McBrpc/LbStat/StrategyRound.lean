import McBrpc.LbStat.BoardRound

/-!
# Rounds of the default strategy generator

Read as maps from endpoints, the new board is the old one with the measured endpoints refreshed and
the expired ones left out, and with entries for those newly measured endpoints that found a slot.
-/

namespace McBrpc

open MultiLevelHash Binary64 List Option Function StrategyShm KeyedMap

namespace ServerStats

variable {stats : ServerStats}

theorem toNat_totalReqCnt (bounded : stats.succCnt.toNat + stats.failCnt.toNat < 2 ^ 32) :
    stats.totalReqCnt.toNat = stats.succCnt.toNat + stats.failCnt.toNat := by
  rw [totalReqCnt, UInt32.toNat_add, Nat.mod_eq_of_lt bounded]

theorem totalReqCnt_pos (counted : stats.totalReqCnt ≠ 0) : 0 < stats.totalReqCnt.toNat :=
  Nat.pos_of_ne_zero fun zero => counted (UInt32.toNat_inj.mp zero)

theorem floor_curPassRate (counted : stats.totalReqCnt ≠ 0)
    (moderate : 100 * stats.succCnt.toNat < 2 ^ 20 * stats.totalReqCnt.toNat) :
    ⌊stats.curPassRate⌋ = (100 * stats.succCnt.toNat / stats.totalReqCnt.toNat : Nat) := by
  have small := stats.succCnt.toNat_lt
  have product : round (100 * stats.succCnt.toNat) =
      ((100 * stats.succCnt.toNat : Nat) : ℚ) := by
    rw [← round_natCast (n := 100 * stats.succCnt.toNat) (by omega)]
    push_cast
    rfl
  rw [curPassRate, product]
  exact floor_round_div (totalReqCnt_pos counted) stats.totalReqCnt.toNat_lt moderate

variable (bounded : stats.succCnt.toNat + stats.failCnt.toNat < 2 ^ 32)
  (counted : stats.totalReqCnt ≠ 0)
include bounded counted

theorem floor_curPassRate_of_bounded : ⌊stats.curPassRate⌋ =
      (100 * stats.succCnt.toNat / (stats.succCnt.toNat + stats.failCnt.toNat) : Nat) := by
  have total := toNat_totalReqCnt bounded
  have positive := totalReqCnt_pos counted
  rw [floor_curPassRate counted (by omega), total]

theorem floor_curPassRate_mem : 0 ≤ ⌊stats.curPassRate⌋ ∧ ⌊stats.curPassRate⌋ ≤ 100 := by
  have small : 100 * stats.succCnt.toNat / (stats.succCnt.toNat + stats.failCnt.toNat) ≤ 100 := by
    apply Nat.div_le_of_le_mul
    nlinarith
  rw [floor_curPassRate_of_bounded bounded counted]
  exact ⟨Int.natCast_nonneg _, by exact_mod_cast small⟩

theorem toInt_toShort_curPassRate : (toShort stats.curPassRate).toInt =
      (100 * stats.succCnt.toNat / (stats.succCnt.toNat + stats.failCnt.toNat) : Nat) := by
  obtain ⟨lower, upper⟩ := floor_curPassRate_mem bounded counted
  rw [toShort, if_pos (Int.floor_nonneg.mp lower), Int16.toInt_ofInt_of_le (by omega) (by omega)]
  exact floor_curPassRate_of_bounded bounded counted

end ServerStats

namespace DefaultStrategyGenerator

variable (env : RoundEnv) {hash : MultiLevelHash}

theorem rebuildSlot_of_missing {statMap : StatMap} {backup : Nat → StrategyShmInfo}
    {info : StrategyShmInfo} (used : info.keyLen ≠ 0)
    (missing : statMap.find? (entryText info) = none) :
    rebuildSlot env hash (statMap, backup) info = (statMap, carryOver env hash info backup) := by
  rw [entryText] at missing
  simp [rebuildSlot, if_neg used, info.key2EndPoint_eq used, missing]

variable {stats : ServerStats}

theorem rebuildSlot_of_found (ready : hash.Ready StrategyShmInfo) {statMap : StatMap}
    {backup : Nat → StrategyShmInfo} {info : StrategyShmInfo} (used : info.keyLen ≠ 0)
    (found : statMap.find? (entryText info) = some stats) :
    rebuildSlot env hash (statMap, backup) info =
      (statMap.erase (entryText info),
        if stats.totalReqCnt ≠ 0 then ready.table.insert backup (refresh env stats info)
        else carryOver env hash info backup) := by
  rw [entryText] at found
  simp only [rebuildSlot, if_neg used, info.key2EndPoint_eq used, found]
  split
  · rcases ins : hash.insert backup info with ⟨board, _ | slot⟩
    · obtain ⟨rfl, full⟩ := insert_of_full ready (key_refresh env stats info) ins
      simp [carryOver, ins, full, entryText]
    · rw [← update_insert ready (key_refresh env stats info) ins]
      rfl
  · rfl

/-- The loop over a list of slots of the current board. -/
def rebuildSlots (hash : MultiLevelHash) (cur : Nat → StrategyShmInfo) (order : List Nat)
    (state : RoundState) : RoundState :=
  order.foldl (fun state k => rebuildSlot env hash state (cur k)) state

theorem visits_rebuildSlot (ready : hash.Ready StrategyShmInfo) :
    Visits ready (rebuildSlot env hash) (renewWith env (refresh env)) :=
  visits_renewWith ready (key_refresh env)
    (fun state info vacant => by simp [rebuildSlot, vacant])
    (fun _ _ _ used missing => rebuildSlot_of_missing env used missing)
    (fun _ _ _ _ used found => rebuildSlot_of_found env ready used found)

theorem rebuild_eq_walkLevels (hash : MultiLevelHash) (cur : Nat → StrategyShmInfo)
    (levels : List Nat) (state : RoundState) :
    rebuild env hash cur levels state =
      walkLevels hash (rebuildSlot env hash) cur levels state := by
  induction levels generalizing state with
  | nil => rfl
  | cons level levels ih =>
    rw [rebuild, walkLevels]
    simp only [ih]
    rfl

variable {cur : Nat → StrategyShmInfo}

theorem rebuild_range_eq (ready : hash.Ready StrategyShmInfo) (state : RoundState) :
    rebuild env hash cur (range hash.getMaxLevelNum) state =
      (0, rebuildSlots env hash cur (range (slotNum hash.levels)) state) :=
  (rebuild_eq_walkLevels env hash cur _ state).trans (walkLevels_range_eq ready _ cur state)

/-- The remaining statistics and the backup board after the loop over the current board. -/
def rebuilt (hash : MultiLevelHash) (cur : Nat → StrategyShmInfo) (statMap : StatMap)
    (backup : Nat → StrategyShmInfo) : RoundState :=
  rebuildSlots env hash cur (range (slotNum hash.levels)) (statMap, backup)

/-- The slots are reached from zeroed memory by insertions. -/
def FilledByInsert (hash : MultiLevelHash) (slots : Nat → StrategyShmInfo) : Prop :=
  ∃ (zeroed : Nat → StrategyShmInfo) (vals : List StrategyShmInfo),
    (∀ slot < slotNum hash.levels, zeroed slot = HashSlot.zero) ∧
      slots = vals.foldl (fun slots val => (hash.insert slots val).1) zeroed

theorem FilledByInsert.placed (ready : hash.Ready StrategyShmInfo)
    {slots : Nat → StrategyShmInfo} (filled : FilledByInsert hash slots) :
    ready.table.Placed slots := by
  obtain ⟨zeroed, vals, zero, rfl⟩ := filled
  apply Execution.foldl_invariant ready.table.Placed vals (ready.placed_of_zero zero)
  intro slots val _ placed
  rw [ready.insert_eq]
  exact placed.insert val

/-- The requests counted for an endpoint do not overflow. -/
def Bounded (statMap : StatMap) : Prop :=
  ∀ text stats, statMap.find? text = some stats →
    stats.succCnt.toNat + stats.failCnt.toNat < 2 ^ 32

/-- The new board of a round, in terms of the old one and of the statistics. -/
structure Publishes (statMap : StatMap) (old new : List UInt8 → Option StrategyShmInfo) : Prop where
  counted : ∀ (ip : Ip) (port : Nat), port < 65536 → ∀ stats,
    statMap.find? (endpoint2str ⟨ip, port⟩) = some stats → stats.totalReqCnt ≠ 0 →
      ∀ entry, new (endPointKey ip port) = some entry →
        entry.passRate.toInt =
            (100 * stats.succCnt.toNat / (stats.succCnt.toNat + stats.failCnt.toNat) : Nat) ∧
          entry.curReqCnt.toNat = stats.succCnt.toNat + stats.failCnt.toNat ∧
          entry.strategyTime = env.now
  kept : ∀ (ip : Ip) (port : Nat), port < 65536 → ∀ stats,
    statMap.find? (endpoint2str ⟨ip, port⟩) = some stats → stats.totalReqCnt ≠ 0 →
      old (endPointKey ip port) ≠ none → new (endPointKey ip port) ≠ none
  carried : ∀ (ip : Ip) (port : Nat), port < 65536 →
    (∀ stats, statMap.find? (endpoint2str ⟨ip, port⟩) = some stats → stats.totalReqCnt = 0) →
      new (endPointKey ip port) = (old (endPointKey ip port)).filter fun entry =>
        env.now < entry.strategyTime + env.maxLbStrategyLiveTimeS
  nothing : ∀ key, (∀ (ip : Ip) (port : Nat), port < 65536 → key ≠ endPointKey ip port) →
    new key = none

variable {statMap : StatMap}

/-- The backup board when the boards are switched. -/
def published (hash : MultiLevelHash) (cur : Nat → StrategyShmInfo) (statMap : StatMap)
    (backup : Nat → StrategyShmInfo) : Nat → StrategyShmInfo :=
  ((rebuilt env hash cur statMap backup).1.entries.foldl (insertFresh env hash)
    (rebuilt env hash cur statMap backup)).2

theorem published_eq (statMap : StatMap) (backup : Nat → StrategyShmInfo) :
    published env hash cur statMap backup =
      publishedBy env hash (rebuildSlot env hash) cur (statMap, backup) := rfl

theorem refresh_counts (bounded : stats.succCnt.toNat + stats.failCnt.toNat < 2 ^ 32)
    (counted : stats.totalReqCnt ≠ 0) (info : StrategyShmInfo) :
    (refresh env stats info).passRate.toInt =
        (100 * stats.succCnt.toNat / (stats.succCnt.toNat + stats.failCnt.toNat) : Nat) ∧
      (refresh env stats info).curReqCnt.toNat = stats.succCnt.toNat + stats.failCnt.toNat ∧
      (refresh env stats info).strategyTime = env.now := by
  refine ⟨stats.toInt_toShort_curPassRate bounded counted, ?_, rfl⟩
  exact ServerStats.toNat_totalReqCnt bounded

theorem publishes_published (ready : hash.Ready StrategyShmInfo)
    (placed : ready.table.Placed cur) {backup : Nat → StrategyShmInfo}
    (vacant : ∀ slot < slotNum hash.levels, (backup slot).keyLen = 0)
    (canon : Canonical statMap) (bounded : Bounded statMap) :
    Publishes env statMap (ready.table.lookup cur)
      (ready.table.lookup (published env hash cur statMap backup)) := by
  have visits := visits_rebuildSlot env ready
  rw [published_eq]
  have old_text : ∀ (ip : Ip) (port : Nat), port < 65536 → ∀ info,
      ready.table.lookup cur (endPointKey ip port) = some info →
        entryText info = endpoint2str ⟨ip, port⟩ := by
    intro ip port bound info old
    obtain ⟨slot, -, holds, rfl⟩ := placed.lookup_eq_some_iff.mp old
    exact (entryText_of_key bound holds.1).2
  constructor
  · intro ip port bound stats given counted entry found
    cases old : ready.table.lookup cur (endPointKey ip port) with
    | some info =>
      rw [← old_text ip port bound info old] at given
      rw [visits.lookup_publishedBy_of_old env placed vacant canon old,
        renewWith_of_counted given counted] at found
      obtain rfl := some.inj found
      exact refresh_counts env (bounded _ _ given) counted info
    | none =>
      rcases visits.lookup_publishedBy_of_fresh env placed vacant canon bound old given
        counted with fresh | full
      · rw [fresh] at found
        obtain rfl := some.inj found
        exact refresh_counts env (bounded _ _ given) counted _
      · rw [full.lookup_eq_none] at found
        simp at found
  · intro ip port bound stats given counted present
    obtain ⟨info, old⟩ := ne_none_iff_exists'.mp present
    rw [← old_text ip port bound info old] at given
    rw [visits.lookup_publishedBy_of_old env placed vacant canon old,
      renewWith_of_counted given counted]
    exact some_ne_none _
  · intro ip port bound uncounted
    cases old : ready.table.lookup cur (endPointKey ip port) with
    | some info =>
      rw [← old_text ip port bound info old] at uncounted
      rw [visits.lookup_publishedBy_of_old env placed vacant canon old,
        renewWith_of_uncounted uncounted]
    | none =>
      apply visits.lookup_publishedBy_of_unmeasured env placed vacant canon old
      intro text stats given counted same
      obtain ⟨ip', port', -, upper, rfl, ip_eq, port_eq⟩ := canon text stats given
      rw [key_freshEntry env ip_eq port_eq] at same
      obtain ⟨rfl, rfl⟩ := endPointKey_injective bound (by omega) same
      exact counted (uncounted stats given)
  · intro key foreign
    apply visits.lookup_publishedBy_of_unmeasured env placed vacant canon
    · rw [placed.lookup_eq_none_iff]
      rintro slot - ⟨rfl, used⟩
      have ne : (cur slot).keyLen ≠ 0 :=
        fun empty => used ((cur slot).key_eq_nil_iff.mpr empty)
      exact foreign _ _ (cur slot).port_lt ((cur slot).key_eq_endPointKey ne)
    · intro text stats given _ same
      obtain ⟨ip, port, -, upper, -, ip_eq, port_eq⟩ := canon text stats given
      exact foreign ip port (by omega) (same.trans (key_freshEntry env ip_eq port_eq))

theorem updateStrategy_eq {shm : StrategyShm} {head : StrategyShmHead}
    (attached : shm.shmHead = some head) (ready : shm.shmHash.Ready StrategyShmInfo)
    (statMap : StatMap) :
    updateStrategy env shm statMap =
      (0, { shm with
          shmHead := some { head with curShmboardIdx := head.curShmboardIdx + 1 }
          shmBody := update
            (update shm.shmBody (head.curShmboardIdx + 1)
              (published env shm.shmHash (shm.shmBody head.curShmboardIdx) statMap
                (shm.shmBody (head.curShmboardIdx + 1))))
            head.curShmboardIdx (shm.shmHash.reset (shm.shmBody head.curShmboardIdx)) },
        ∅) := by
  rw [updateStrategy, attached]
  simp only [rebuild_range_eq env ready]
  rw [insertFresh_entries_empty]
  rfl

/-- A round of the default strategy generator that returns zero publishes its board, where a
measured endpoint is missing only if it was not on the old one and others have all its slots, takes
all statistics and empties the old board. -/
theorem updateStrategy_publishes {shm shm' : StrategyShm} {head : StrategyShmHead}
    {statMap statMap' : StatMap} (attached : shm.shmHead = some head)
    (ready : shm.shmHash.Ready StrategyShmInfo)
    (filled : FilledByInsert shm.shmHash (shm.shmBody head.curShmboardIdx))
    (vacant : ∀ slot < slotNum shm.shmHash.levels,
      (shm.shmBody (head.curShmboardIdx + 1) slot).keyLen = 0) (canonical : Canonical statMap)
    (bounded : Bounded statMap) (success : updateStrategy env shm statMap = (0, shm', statMap')) :
    shm'.shmHead = some { head with curShmboardIdx := head.curShmboardIdx + 1 } ∧
      Publishes env statMap (shm.entry head.curShmboardIdx)
        (shm'.entry (head.curShmboardIdx + 1)) ∧
      (∀ (ip : Ip) (port : Nat), port < 65536 → ∀ stats,
        statMap.find? (endpoint2str ⟨ip, port⟩) = some stats → stats.totalReqCnt ≠ 0 →
          shm'.entry (head.curShmboardIdx + 1) (endPointKey ip port) = none →
            shm.entry head.curShmboardIdx (endPointKey ip port) = none ∧
              shm.shmHash.Taken (shm'.shmBody (head.curShmboardIdx + 1)) (endPointKey ip port)) ∧
      statMap' = ∅ ∧
      ∀ slot < slotNum shm.shmHash.levels,
        shm'.shmBody head.curShmboardIdx slot = HashSlot.zero := by
  rw [updateStrategy_eq env attached ready] at success
  obtain ⟨-, rfl, rfl⟩ := success
  have differ := other_board_ne head.curShmboardIdx
  have publishes := publishes_published env ready (filled.placed ready) vacant canonical bounded
  refine ⟨rfl, ?_, ?_, rfl, ?_⟩
  · rw [entry_eq ready, entry_eq ready]
    simp only [update_of_ne differ, update_self]
    exact publishes
  · intro ip port bound stats given counted missing
    rw [entry_eq ready] at missing ⊢
    simp only [update_of_ne differ, update_self] at missing ⊢
    rcases Visits.lookup_publishedBy_of_counted env (filled.placed ready) vacant
      (visits_rebuildSlot env ready) canonical bound given counted with ⟨info, found⟩ | ⟨old, full⟩
    · rw [published_eq, found] at missing
      simp at missing
    · exact ⟨old, taken_of_full full⟩
  · intro slot inside
    simp only [update_self]
    exact ready.reset_eq_zero _ inside

def emptyBoards : StrategyShm :=
  ⟨some ⟨0, 0⟩, ⟨2, 2, 1, 156, [⟨0, 2⟩, ⟨2, 1⟩], true⟩, fun _ _ => HashSlot.zero⟩

theorem ready_emptyBoards : emptyBoards.shmHash.Ready StrategyShmInfo := by
  have success : (new 1 156 2 2).init StrategyShmInfo = (0, emptyBoards.shmHash) := rfl
  exact ready_of_init success (by decide)

/-- The round at second 100 with a live time of 30 seconds. -/
def roundAt100 : RoundEnv := ⟨100, 30, fun _ => HashSlot.zero⟩

def echoStats : StatMap :=
  (∅ : StatMap).insert "10.0.0.1:80" ⟨3, 1, 0, 1, 20, "echo", "10.0.0.1", 80⟩

theorem canonical_singleton (ip_eq : stats.ip = "10.0.0.1") (port_eq : stats.port = 80)
    : Canonical ((∅ : StatMap).insert "10.0.0.1:80" stats) := by
  intro text stats' found
  rw [find?_insert] at found
  split at found
  · next same =>
    obtain rfl := some.inj found
    exact ⟨⟨10, 0, 0, 1⟩, 80, by decide, by decide, same.trans (by decide),
      ip_eq.trans (by decide), port_eq⟩
  · simp at found

theorem bounded_echoStats : Bounded echoStats := by
  intro text stats found
  rw [echoStats, find?_insert] at found
  split at found
  · obtain rfl := some.inj found
    decide
  · simp at found

/-- An entry of port 80 that was written at a time. -/
def writtenAt (strategyTime : UInt32) (ip : String) : StrategyShmInfo :=
  { (HashSlot.zero : StrategyShmInfo).makeKey ip 80 with
    passRate := 90
    strategyTime }

/-- A board with two endpoints, one of which has expired at second 100. -/
def filledBoard : Nat → StrategyShmInfo :=
  [writtenAt 90 "10.0.0.2", writtenAt 20 "10.0.0.4"].foldl
    (fun slots val => (emptyBoards.shmHash.insert slots val).1) fun _ => HashSlot.zero

def filledBoards : StrategyShm :=
  { emptyBoards with shmBody := update emptyBoards.shmBody 0 filledBoard }

theorem filled_filledBoards : FilledByInsert emptyBoards.shmHash (filledBoards.shmBody 0) := by
  have current : filledBoards.shmBody 0 = filledBoard := by simp [filledBoards]
  rw [current]
  exact ⟨fun _ => HashSlot.zero, [writtenAt 90 "10.0.0.2", writtenAt 20 "10.0.0.4"],
    fun _ _ => rfl, rfl⟩

theorem uncounted_echoStats {text : String} (other : text ≠ "10.0.0.1:80") (stats : ServerStats)
    (given : echoStats.find? text = some stats) : stats.totalReqCnt = 0 := by
  rw [echoStats, find?_insert, if_neg other] at given
  simp at given

theorem not_taken_filledBoards : ¬ emptyBoards.shmHash.Taken
    ((updateStrategy roundAt100 filledBoards echoStats).2.1.shmBody 1)
    (endPointKey ⟨10, 0, 0, 1⟩ 80) := by
  unfold MultiLevelHash.Taken
  decide +kernel

/-- The round leaves the entry of the first endpoint, drops that of the second and adds one for the
endpoint that it measured. -/
theorem updateStrategy_publishes_filledBoards :
    ∃ shm', updateStrategy roundAt100 filledBoards echoStats = (0, shm', ∅) ∧
      shm'.entry 1 (endPointKey ⟨10, 0, 0, 2⟩ 80) = some (writtenAt 90 "10.0.0.2") ∧
      shm'.entry 1 (endPointKey ⟨10, 0, 0, 4⟩ 80) = none ∧
      shm'.entry 1 (endPointKey ⟨10, 0, 0, 1⟩ 80) ≠ none := by
  have room := not_taken_filledBoards
  obtain ⟨shm', success⟩ : ∃ shm', updateStrategy roundAt100 filledBoards echoStats =
      (0, shm', ∅) :=
    ⟨_, @updateStrategy_eq roundAt100 filledBoards ⟨0, 0⟩ rfl ready_emptyBoards echoStats⟩
  obtain ⟨-, publishes, taken, -⟩ := @updateStrategy_publishes roundAt100 filledBoards shm' ⟨0, 0⟩
    echoStats ∅ rfl ready_emptyBoards filled_filledBoards (fun _ _ => rfl)
    (canonical_singleton (by decide) rfl) bounded_echoStats success
  refine ⟨shm', success, ?_, ?_, fun missing => ?_⟩
  · exact (publishes.carried ⟨10, 0, 0, 2⟩ 80 (by decide)
      (uncounted_echoStats (by decide))).trans (by decide +kernel)
  · exact (publishes.carried ⟨10, 0, 0, 4⟩ 80 (by decide)
      (uncounted_echoStats (by decide))).trans (by decide +kernel)
  · rw [success] at room
    exact room (taken ⟨10, 0, 0, 1⟩ 80 (by decide) _ rfl (by decide) missing).2

end DefaultStrategyGenerator
end McBrpc
