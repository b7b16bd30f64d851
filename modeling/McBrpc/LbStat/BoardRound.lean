import McBrpc.LbStat.StrategyGenerator

/-!
# Rounds over the strategy boards

Both generators walk over the slots of the current board and keep, change or drop the entry of
each, and then insert entries for the endpoints whose statistics are left.  A walk is described by
what becomes of an entry under the statistics of its endpoint.
-/

namespace McBrpc

open MultiLevelHash List Option KeyedMap ProbeTable

/-- Every slot of the key holds another one. -/
def MultiLevelHash.Taken (hash : MultiLevelHash) (slots : Nat → StrategyShmInfo)
    (key : List UInt8) : Prop :=
  ∀ level ∈ hash.levels, HashSlot.key (slots (level.slot key)) ≠ [] ∧
    HashSlot.key (slots (level.slot key)) ≠ key

theorem taken_of_full {hash : MultiLevelHash} {ready : hash.Ready StrategyShmInfo}
    {slots : Nat → StrategyShmInfo} {key : List UInt8} (full : ready.table.Full slots key) :
    hash.Taken slots key := by
  intro level level_mem
  have refused := full (level.slot key) (mem_map_of_mem level_mem)
  rw [ProbeTable.Stops, not_or] at refused
  exact refused

/-- The loop over a list of slots of the current board. -/
def walk (visit : RoundState → StrategyShmInfo → RoundState) (cur : Nat → StrategyShmInfo)
    (order : List Nat) (state : RoundState) : RoundState :=
  order.foldl (fun state k => visit state (cur k)) state

def walkLevels (hash : MultiLevelHash) (visit : RoundState → StrategyShmInfo → RoundState)
    (cur : Nat → StrategyShmInfo) : List Nat → RoundState → Int × RoundState
  | [], state => (0, state)
  | level :: levels, state =>
    match hash.getRawHashTable level with
    | (0, some table) =>
      walkLevels hash visit cur levels
        (walk visit cur (DefaultStrategyGenerator.levelSlots table) state)
    | _ => (-2, state)

variable {hash : MultiLevelHash}

theorem flatMap_levelSlots {pos : Nat} {levels : List HashLevel}
    (consecutive : Consecutive pos levels) :
    levels.flatMap DefaultStrategyGenerator.levelSlots = range' pos (slotNum levels) := by
  induction levels generalizing pos with
  | nil => rfl
  | cons level levels ih =>
    obtain ⟨rfl, rest⟩ := consecutive
    rw [flatMap_cons, ih rest, slotNum_cons, ← range'_append_1,
      DefaultStrategyGenerator.levelSlots, range_eq_range', map_add_range',
      Nat.add_zero]

theorem walkLevels_range'_eq (visit : RoundState → StrategyShmInfo → RoundState)
    (cur : Nat → StrategyShmInfo) (before levels : List HashLevel)
    (levels_eq : hash.levels = before ++ levels) (length_eq : hash.levels.length = hash.levelNum)
    (state : RoundState) :
    walkLevels hash visit cur (range' before.length levels.length) state =
      (0, walk visit cur (levels.flatMap DefaultStrategyGenerator.levelSlots) state) := by
  induction levels generalizing before state with
  | nil => rfl
  | cons level levels ih =>
    have bound : before.length < hash.levelNum := by
      rw [← length_eq, levels_eq, length_append, length_cons]
      omega
    have raw : hash.getRawHashTable before.length = (0, some level) := by
      rw [getRawHashTable, if_neg (by omega), levels_eq]
      simp
    have next := ih (before ++ [level]) (by simp [levels_eq])
    rw [length_append, length_singleton] at next
    rw [length_cons, range'_succ, walkLevels, raw, flatMap_cons, walk, foldl_append]
    exact next _

theorem walkLevels_range_eq (ready : hash.Ready StrategyShmInfo)
    (visit : RoundState → StrategyShmInfo → RoundState) (cur : Nat → StrategyShmInfo)
    (state : RoundState) :
    walkLevels hash visit cur (range hash.getMaxLevelNum) state =
      (0, walk visit cur (range (slotNum hash.levels)) state) := by
  have all := walkLevels_range'_eq visit cur [] hash.levels rfl ready.length_levels state
  rw [flatMap_levelSlots ready.consecutive, ready.length_levels] at all
  rw [range_eq_range', range_eq_range']
  exact all

namespace DefaultStrategyGenerator

def entryText (info : StrategyShmInfo) : String :=
  endpoint2str ⟨info.key.ip, info.port⟩

theorem key_eq_of_entryText_eq {info info' : StrategyShmInfo} (used : info.keyLen ≠ 0)
    (occupied' : info'.keyLen ≠ 0) (same : entryText info = entryText info') :
    HashSlot.key info = HashSlot.key info' := by
  obtain ⟨ips, ports⟩ := endpoint2str_injective same
  rw [info.key_eq_endPointKey used, info'.key_eq_endPointKey occupied', ips, ports]

theorem entryText_of_key {info : StrategyShmInfo} {ip : Ip} {port : Nat} (bound : port < 65536)
    (key_eq : HashSlot.key info = endPointKey ip port) :
    info.keyLen ≠ 0 ∧ entryText info = endpoint2str ⟨ip, port⟩ := by
  have used : info.keyLen ≠ 0 := by
    rw [ne_eq, ← info.key_eq_nil_iff, key_eq]
    exact cons_ne_nil _ _
  rw [info.key_eq_endPointKey used] at key_eq
  obtain ⟨rfl, rfl⟩ := endPointKey_injective info.port_lt bound key_eq
  exact ⟨used, rfl⟩

end DefaultStrategyGenerator

open DefaultStrategyGenerator

theorem update_insert (ready : hash.Ready StrategyShmInfo) {backup board : Nat → StrategyShmInfo}
    {info : StrategyShmInfo} {slot : Nat} {change : StrategyShmInfo → StrategyShmInfo}
    (same_key : HashSlot.key (change info) = HashSlot.key info)
    (ins : hash.insert backup info = (board, some slot)) :
    Function.update board slot (change (board slot)) =
      ready.table.insert backup (change info) := by
  rw [ready.insert_eq, Prod.mk.injEq] at ins
  obtain ⟨rfl, seek_eq⟩ := ins
  simp [ProbeTable.insert, Ready.table_keyOf, same_key, seek_eq]

theorem insert_of_full (ready : hash.Ready StrategyShmInfo) {backup board : Nat → StrategyShmInfo}
    {info info' : StrategyShmInfo} (same_key : HashSlot.key info' = HashSlot.key info)
    (full : hash.insert backup info = (board, none)) :
    board = backup ∧ ready.table.insert backup info' = backup := by
  rw [ready.insert_eq, Prod.mk.injEq] at full
  obtain ⟨rfl, seek_eq⟩ := full
  have full' : ready.table.seek backup (ready.table.keyOf info') = none := by
    rw [Ready.table_keyOf, same_key, seek_eq]
  exact ⟨insert_of_seek_none seek_eq, insert_of_seek_none full'⟩

/-- A loop body that visits a slot of the current board: it takes the statistics of the entry's
endpoint and inserts what they make of the entry. -/
structure Visits (ready : hash.Ready StrategyShmInfo)
    (visit : RoundState → StrategyShmInfo → RoundState)
    (renew : StatMap → StrategyShmInfo → Option StrategyShmInfo) : Prop where
  vacant : ∀ state info, info.keyLen = 0 → visit state info = state
  stats : ∀ state info text, info.keyLen ≠ 0 →
    (visit state info).1.find? text = if text = entryText info then none else state.1.find? text
  board : ∀ state info, info.keyLen ≠ 0 →
    (visit state info).2 = ((renew state.1 info).map (ready.table.insert state.2)).getD state.2
  congr : ∀ statMap statMap' info,
    statMap.find? (entryText info) = statMap'.find? (entryText info) →
      renew statMap info = renew statMap' info
  key : ∀ statMap info info', renew statMap info = some info' →
    HashSlot.key info' = HashSlot.key info

namespace Visits

variable {ready : hash.Ready StrategyShmInfo} {visit : RoundState → StrategyShmInfo → RoundState}
  {renew : StatMap → StrategyShmInfo → Option StrategyShmInfo} {cur : Nat → StrategyShmInfo}

theorem find?_walk (visits : Visits ready visit renew) (order : List Nat) (state : RoundState)
    (text : String) :
    (walk visit cur order state).1.find? text =
      if ∃ slot ∈ order, (cur slot).keyLen ≠ 0 ∧ entryText (cur slot) = text then none
      else state.1.find? text := by
  induction order generalizing state with
  | nil => simp [walk]
  | cons slot order ih =>
    rw [walk, foldl_cons, ← walk, ih]
    by_cases vacant : (cur slot).keyLen = 0
    · simp [visits.vacant state (cur slot) vacant, vacant]
    · rw [visits.stats state (cur slot) text vacant]
      simp only [exists_mem_cons_iff, vacant, ne_eq, not_false_eq_true, true_and]
      by_cases here : entryText (cur slot) = text
      · simp [here]
      · simp [here, Ne.symm here]

variable {order : List Nat} (visits : Visits ready visit renew)
include visits

theorem walk_of_vacant (vacant : ∀ slot ∈ order, (cur slot).keyLen = 0) (state : RoundState) :
    walk visit cur order state = state := by
  induction order with
  | nil => rfl
  | cons slot order ih =>
    obtain ⟨here, later⟩ := forall_mem_cons.mp vacant
    rw [walk, foldl_cons, visits.vacant state (cur slot) here]
    exact ih later

theorem find?_of_walk {state : RoundState} {text : String}
    {stats : ServerStats} (found : (walk visit cur order state).1.find? text = some stats) :
    state.1.find? text = some stats := by
  rw [visits.find?_walk] at found
  split at found
  · simp at found
  · exact found

variable (placed : ready.table.Placed cur)
include placed

theorem walk_eq_refill {statMap : StatMap} (inside : ∀ slot ∈ order, slot < slotNum hash.levels)
    (nodup : order.Nodup) (state : RoundState) (same : ∀ slot ∈ order, (cur slot).keyLen ≠ 0 →
      state.1.find? (entryText (cur slot)) = statMap.find? (entryText (cur slot))) :
    (walk visit cur order state).2 = ready.table.refill (renew statMap) cur order state.2 := by
  induction order generalizing state with
  | nil => rfl
  | cons slot order ih =>
    obtain ⟨fresh, nodup⟩ := nodup_cons.mp nodup
    obtain ⟨slot_inside, inside⟩ := forall_mem_cons.mp inside
    obtain ⟨slot_same, same⟩ := forall_mem_cons.mp same
    rw [walk, foldl_cons, ← walk, refill, foldl_cons, ← refill]
    by_cases vacant : (cur slot).keyLen = 0
    · have vacated : ready.table.keyOf (cur slot) = ready.table.vacant :=
        (cur slot).key_eq_nil_iff.mpr vacant
      rw [visits.vacant state (cur slot) vacant, if_pos vacated]
      exact ih inside nodup state same
    · have used : ready.table.keyOf (cur slot) ≠ ready.table.vacant :=
        fun vacated => vacant ((cur slot).key_eq_nil_iff.mp vacated)
      rw [if_neg used, ih inside nodup, visits.board state (cur slot) vacant,
        visits.congr state.1 statMap (cur slot) (slot_same vacant)]
      intro later mem later_occupied
      rw [visits.stats state (cur slot) _ vacant, if_neg]
      · exact same later mem later_occupied
      · intro texts
        have keys := key_eq_of_entryText_eq later_occupied vacant texts
        have equal : later = slot :=
          placed.eq_of_holds (inside later mem) slot_inside ⟨keys, used⟩ ⟨rfl, used⟩
        exact fresh (equal ▸ mem)

theorem refilled (statMap : StatMap) {backup : Nat → StrategyShmInfo}
    (vacant : ∀ slot < slotNum hash.levels, (backup slot).keyLen = 0) :
    ProbeTable.Refilled ready.table (renew statMap) cur (range (slotNum hash.levels))
      (walk visit cur (range (slotNum hash.levels)) (statMap, backup)).2 := by
  have inside : ∀ slot ∈ range (slotNum hash.levels), slot < slotNum hash.levels :=
    fun slot => mem_range.mp
  rw [visits.walk_eq_refill placed inside nodup_range (statMap, backup) (fun _ _ _ => rfl)]
  exact refilled_refill placed
    (fun slot inside => (backup slot).key_eq_nil_iff.mpr (vacant slot inside))
    (fun _ _ renewed => visits.key _ _ _ renewed) inside nodup_range
    (pairwise_le_range.imp fun le => levelOf_mono hash.levels le)

theorem lookup_walk (statMap : StatMap) {backup : Nat → StrategyShmInfo}
    (vacant : ∀ slot < slotNum hash.levels, (backup slot).keyLen = 0) (key : List UInt8) :
    ready.table.lookup (walk visit cur (range (slotNum hash.levels)) (statMap, backup)).2 key =
      (ready.table.lookup cur key).bind (renew statMap) :=
  (visits.refilled placed statMap vacant).lookup_eq placed (fun _ => mem_range) key

theorem find?_walk_range (state : RoundState) (ip : Ip) {port : Nat} (bound : port < 65536) :
    (walk visit cur (range (slotNum hash.levels)) state).1.find? (endpoint2str ⟨ip, port⟩) =
      if (ready.table.lookup cur (endPointKey ip port)).isSome then none
      else state.1.find? (endpoint2str ⟨ip, port⟩) := by
  rw [visits.find?_walk]
  apply if_congr _ rfl rfl
  rw [isSome_iff_exists]
  constructor
  · rintro ⟨slot, mem, used, text_eq⟩
    obtain ⟨ip_eq, port_eq⟩ := endpoint2str_injective text_eq
    refine ⟨cur slot, placed.lookup_eq_some_iff.mpr ⟨slot, mem_range.mp mem, ?_, rfl⟩⟩
    rw [← ip_eq, ← port_eq, ← (cur slot).key_eq_endPointKey used]
    exact ⟨rfl, fun nil => used ((cur slot).key_eq_nil_iff.mp nil)⟩
  · rintro ⟨info, found⟩
    obtain ⟨slot, inside, holds, rfl⟩ := placed.lookup_eq_some_iff.mp found
    exact ⟨slot, mem_range.mpr inside, entryText_of_key bound holds.1⟩

end Visits

/-- What becomes of an entry of the current board: it is changed when its endpoint was measured
and otherwise kept until it expires. -/
def renewWith (env : RoundEnv) (change : ServerStats → StrategyShmInfo → StrategyShmInfo)
    (statMap : StatMap) (info : StrategyShmInfo) : Option StrategyShmInfo :=
  match (statMap.find? (entryText info)).filter fun stats => stats.totalReqCnt ≠ 0 with
  | some stats => some (change stats info)
  | none =>
    if env.now < info.strategyTime + env.maxLbStrategyLiveTimeS then some info else none

section Renewal

variable {env : RoundEnv} {change : ServerStats → StrategyShmInfo → StrategyShmInfo}
  {statMap : StatMap} {info : StrategyShmInfo}

theorem renewWith_of_counted {stats : ServerStats}
    (given : statMap.find? (entryText info) = some stats) (counted : stats.totalReqCnt ≠ 0) :
    renewWith env change statMap info = some (change stats info) := by
  rw [renewWith, given, filter_some_pos (by simpa using counted)]

theorem renewWith_of_uncounted
    (uncounted : ∀ stats, statMap.find? (entryText info) = some stats → stats.totalReqCnt = 0) :
    renewWith env change statMap info = (some info).filter fun entry =>
      env.now < entry.strategyTime + env.maxLbStrategyLiveTimeS := by
  have none_counted : (statMap.find? (entryText info)).filter
      (fun stats => stats.totalReqCnt ≠ 0) = none := by
    rw [filter_eq_none_iff]
    intro stats given
    simpa using uncounted stats given
  rw [renewWith, none_counted, filter_some]
  simp

theorem renewWith_cases {info' : StrategyShmInfo}
    (renewed : renewWith env change statMap info = some info') :
    (∃ stats, statMap.find? (entryText info) = some stats ∧ stats.totalReqCnt ≠ 0 ∧
      info' = change stats info) ∨ info' = info := by
  rw [renewWith] at renewed
  split at renewed
  · next stats given =>
    obtain ⟨found, counted⟩ := filter_eq_some_iff.mp given
    exact .inl ⟨stats, found, by simpa using counted, (some.inj renewed).symm⟩
  · split at renewed
    · exact .inr (some.inj renewed).symm
    · simp at renewed

theorem carryOver_eq (ready : hash.Ready StrategyShmInfo) (backup : Nat → StrategyShmInfo) :
    carryOver env hash info backup =
      if env.now < info.strategyTime + env.maxLbStrategyLiveTimeS then
        ready.table.insert backup info
      else backup := by
  rw [carryOver, ready.insert_eq]

/-- A loop body is described by its effect on an occupied slot with and without statistics. -/
theorem visits_renewWith (ready : hash.Ready StrategyShmInfo)
    {visit : RoundState → StrategyShmInfo → RoundState}
    (keeps_key : ∀ stats info, HashSlot.key (change stats info) = HashSlot.key info)
    (vacant : ∀ state info, info.keyLen = 0 → visit state info = state)
    (missing : ∀ statMap backup info, info.keyLen ≠ 0 → statMap.find? (entryText info) = none →
        visit (statMap, backup) info = (statMap, carryOver env hash info backup))
    (found : ∀ statMap backup info stats, info.keyLen ≠ 0 →
      statMap.find? (entryText info) = some stats →
        visit (statMap, backup) info =
          (statMap.erase (entryText info),
            if stats.totalReqCnt ≠ 0 then ready.table.insert backup (change stats info)
            else carryOver env hash info backup)) : Visits ready visit (renewWith env change) where
  vacant := vacant
  stats := by
    rintro ⟨statMap, backup⟩ info text used
    cases given : statMap.find? (entryText info) with
    | none =>
      rw [missing statMap backup info used given]
      split
      · next same => rw [same, given]
      · rfl
    | some stats =>
      rw [found statMap backup info stats used given]
      exact find?_erase _ _ _
  board := by
    rintro ⟨statMap, backup⟩ info used
    cases given : statMap.find? (entryText info) with
    | none =>
      rw [missing statMap backup info used given, carryOver_eq ready, renewWith, given]
      split <;> rfl
    | some stats =>
      rw [found statMap backup info stats used given, carryOver_eq ready, renewWith, given]
      by_cases counted : stats.totalReqCnt ≠ 0
      · rw [if_pos counted, filter_some_pos (by simpa using counted)]
        rfl
      · rw [if_neg counted, filter_some_neg (by simpa using counted)]
        split <;> rfl
  congr statMap statMap' info same := by rw [renewWith, renewWith, same]
  key := by
    intro statMap info info' renewed
    rcases renewWith_cases renewed with ⟨stats, -, -, rfl⟩ | rfl
    · exact keeps_key stats info
    · rfl

end Renewal

namespace DefaultStrategyGenerator

variable (env : RoundEnv)

@[simp]
theorem key_refresh (stats : ServerStats) (info : StrategyShmInfo) :
    HashSlot.key (refresh env stats info) = HashSlot.key info := rfl

theorem find?_insertFresh (its : List (Σ _ : String, ServerStats))
    (state : RoundState) (text : String) :
    (its.foldl (insertFresh env hash) state).1.find? text =
      if ∃ it ∈ its, it.1 = text then none else state.1.find? text := by
  induction its generalizing state with
  | nil => simp
  | cons it its ih =>
    rw [foldl_cons, ih, insertFresh, find?_erase]
    by_cases here : it.1 = text
    · simp [here]
    · have later : (∃ it' ∈ it :: its, it'.1 = text) ↔ ∃ it' ∈ its, it'.1 = text := by
        simp [here]
      rw [if_neg (Ne.symm here), if_congr later rfl rfl]

theorem insertFresh_entries_empty (statMap : StatMap) (backup : Nat → StrategyShmInfo) :
    (statMap.entries.foldl (insertFresh env hash) (statMap, backup)).1 = ∅ := by
  apply eq_empty_of_find?
  intro text
  rw [find?_insertFresh]
  split
  · rfl
  · next absent =>
    rw [eq_none_iff_forall_ne_some]
    intro stats found
    exact absent ⟨⟨text, stats⟩, (mem_entries_iff _ _ _).mpr found, rfl⟩

theorem key_freshEntry_ne_nil (stats : ServerStats) : HashSlot.key (freshEntry env stats) ≠ [] := by
  rw [ne_eq, StrategyShmInfo.key_eq_nil_iff]
  exact Nat.succ_ne_zero 5

variable {state : RoundState}

section

variable (ready : hash.Ready StrategyShmInfo)
include ready

variable (placed : ready.table.Placed state.2)
include placed

theorem insertFresh_placed (it : Σ _ : String, ServerStats) :
    ready.table.Placed (insertFresh env hash state it).2 := by
  rw [insertFresh, ready.insert_eq]
  split
  · exact placed.insert _
  · exact placed

theorem lookup_insertFresh_of_ne {it : Σ _ : String, ServerStats} {key : List UInt8}
    (ne : it.2.totalReqCnt ≠ 0 → key ≠ HashSlot.key (freshEntry env it.2)) :
    ready.table.lookup (insertFresh env hash state it).2 key =
      ready.table.lookup state.2 key := by
  rw [insertFresh, ready.insert_eq]
  split
  · next counted =>
    exact placed.lookup_insert_of_ne (key_freshEntry_ne_nil env it.2) (ne counted)
  · rfl

theorem lookup_foldl_insertFresh_of_ne {its : List (Σ _ : String, ServerStats)} {key : List UInt8}
    (ne : ∀ it ∈ its, it.2.totalReqCnt ≠ 0 → key ≠ HashSlot.key (freshEntry env it.2)) :
    ready.table.lookup (its.foldl (insertFresh env hash) state).2 key =
      ready.table.lookup state.2 key := by
  induction its generalizing state with
  | nil => rfl
  | cons it its ih =>
    obtain ⟨here, later⟩ := forall_mem_cons.mp ne
    rw [foldl_cons, ih (insertFresh_placed env ready placed it) later,
      lookup_insertFresh_of_ne env ready placed here]

omit placed in
theorem full_insertFresh {key : List UInt8} (full : ready.table.Full state.2 key)
    (it : Σ _ : String, ServerStats) :
    ready.table.Full (insertFresh env hash state it).2 key := by
  rw [insertFresh, ready.insert_eq]
  split
  · exact full.insert _
  · exact full

omit placed in
theorem full_foldl_insertFresh {key : List UInt8} (its : List (Σ _ : String, ServerStats))
    (full : ready.table.Full state.2 key) :
    ready.table.Full (its.foldl (insertFresh env hash) state).2 key :=
  Execution.foldl_invariant (fun state : RoundState => ready.table.Full state.2 key) its full
    fun _ it _ full => full_insertFresh env ready full it

theorem lookup_foldl_insertFresh {its : List (Σ _ : String, ServerStats)}
    (distinct : its.Pairwise fun it it' =>
      HashSlot.key (freshEntry env it.2) ≠ HashSlot.key (freshEntry env it'.2))
    {it : Σ _ : String, ServerStats} (it_mem : it ∈ its) (counted : it.2.totalReqCnt ≠ 0) :
    ready.table.lookup (its.foldl (insertFresh env hash) state).2
        (HashSlot.key (freshEntry env it.2)) = some (freshEntry env it.2) ∨
      ready.table.Full (its.foldl (insertFresh env hash) state).2
        (HashSlot.key (freshEntry env it.2)) := by
  induction its generalizing state with
  | nil => simp at it_mem
  | cons first its ih =>
    obtain ⟨apart, distinct⟩ := pairwise_cons.mp distinct
    have placed' := insertFresh_placed env ready placed first
    rw [foldl_cons]
    rcases mem_cons.mp it_mem with rfl | it_mem
    · rcases placed.lookup_insert_self (key_freshEntry_ne_nil env it.2) with found | full
      · rw [lookup_foldl_insertFresh_of_ne env ready placed' fun later mem _ =>
          apart later mem]
        rw [insertFresh, ready.insert_eq, if_pos counted]
        exact .inl found
      · exact .inr (full_foldl_insertFresh env ready its (full_insertFresh env ready full it))
    · exact ih placed' distinct it_mem

end

/-- The statistics are of endpoints with a port, under their texts. -/
def Canonical (statMap : StatMap) : Prop :=
  ∀ text stats, statMap.find? text = some stats → ∃ (ip : Ip) (port : Nat), 1 ≤ port ∧
    port ≤ 65535 ∧ text = endpoint2str ⟨ip, port⟩ ∧ stats.ip = ip2str ip ∧ stats.port = port

variable {statMap : StatMap}

theorem key_freshEntry {stats : ServerStats} {ip : Ip} {port : Nat}
    (ip_eq : stats.ip = ip2str ip) (port_eq : stats.port = port) :
    HashSlot.key (freshEntry env stats) = endPointKey ip port := by
  rw [freshEntry, key_refresh, ip_eq, port_eq]
  simp [StrategyShmInfo.makeKey, HashSlot.key, ShmKey.bytes, endPointKey]

theorem Canonical.key_freshEntry_ne (canon : Canonical statMap) {text text' : String}
    {stats stats' : ServerStats} (found : statMap.find? text = some stats)
    (found' : statMap.find? text' = some stats') (ne : text ≠ text') :
    HashSlot.key (freshEntry env stats) ≠ HashSlot.key (freshEntry env stats') := by
  obtain ⟨ip, port, -, upper, rfl, ip_eq, port_eq⟩ := canon text stats found
  obtain ⟨ip', port', -, upper', rfl, ip_eq', port_eq'⟩ := canon text' stats' found'
  rw [key_freshEntry env ip_eq port_eq, key_freshEntry env ip_eq' port_eq']
  intro same
  obtain ⟨rfl, rfl⟩ := endPointKey_injective (by omega) (by omega) same
  exact ne rfl

end DefaultStrategyGenerator

/-- The backup board when the boards are switched: after the walk, the remaining statistics have
been inserted. -/
def publishedBy (env : RoundEnv) (hash : MultiLevelHash)
    (visit : RoundState → StrategyShmInfo → RoundState) (cur : Nat → StrategyShmInfo)
    (state : RoundState) : Nat → StrategyShmInfo :=
  let walked := walk visit cur (range (slotNum hash.levels)) state
  (walked.1.entries.foldl (insertFresh env hash) walked).2

namespace Visits

section Boards

variable (env : RoundEnv) {ready : hash.Ready StrategyShmInfo}
  {visit : RoundState → StrategyShmInfo → RoundState}
  {renew : StatMap → StrategyShmInfo → Option StrategyShmInfo} {cur : Nat → StrategyShmInfo}
  (visits : Visits ready visit renew) (placed : ready.table.Placed cur) {statMap : StatMap}
  {backup : Nat → StrategyShmInfo}
  (vacant : ∀ slot < slotNum hash.levels, (backup slot).keyLen = 0)

include visits placed in
theorem find?_of_walk_range (canon : Canonical statMap) {text : String} {stats : ServerStats}
    (found : (walk visit cur (range (slotNum hash.levels)) (statMap, backup)).1.find? text =
      some stats) :
    statMap.find? text = some stats ∧
      ready.table.lookup cur (HashSlot.key (freshEntry env stats)) = none := by
  have given := visits.find?_of_walk found
  refine ⟨given, ?_⟩
  obtain ⟨ip, port, -, upper, rfl, ip_eq, port_eq⟩ := canon text stats given
  rw [visits.find?_walk_range placed _ ip (by omega)] at found
  rw [key_freshEntry env ip_eq port_eq]
  split at found
  · simp at found
  · next absent => simpa using absent

include visits placed vacant in
theorem placed_publishedBy :
    ready.table.Placed (publishedBy env hash visit cur (statMap, backup)) := by
  rw [publishedBy]
  apply Execution.foldl_invariant (fun state : RoundState => ready.table.Placed state.2)
  · exact (visits.refilled placed statMap vacant).placed
  · intro state it _ placed
    exact insertFresh_placed env ready placed it

include visits placed vacant in
theorem lookup_publishedBy_of_old (canon : Canonical statMap) {key : List UInt8}
    {info : StrategyShmInfo} (old : ready.table.lookup cur key = some info) :
    ready.table.lookup (publishedBy env hash visit cur (statMap, backup)) key =
      renew statMap info := by
  have placed' := (visits.refilled placed statMap vacant).placed
  rw [publishedBy, lookup_foldl_insertFresh_of_ne env ready placed',
    visits.lookup_walk placed statMap vacant, old, bind_some]
  rintro ⟨text, stats⟩ it_mem - rfl
  have found := (mem_entries_iff _ _ _).mp it_mem
  rw [(visits.find?_of_walk_range env placed canon found).2] at old
  simp at old

include visits placed vacant in
theorem lookup_publishedBy_of_unmeasured {key : List UInt8} (canon : Canonical statMap)
    (old : ready.table.lookup cur key = none)
    (unmeasured : ∀ text stats, statMap.find? text = some stats → stats.totalReqCnt ≠ 0 →
      key ≠ HashSlot.key (freshEntry env stats)) :
    ready.table.lookup (publishedBy env hash visit cur (statMap, backup)) key = none := by
  have placed' := (visits.refilled placed statMap vacant).placed
  rw [publishedBy, lookup_foldl_insertFresh_of_ne env ready placed',
    visits.lookup_walk placed statMap vacant, old, bind_none]
  rintro ⟨text, stats⟩ it_mem counted
  have found := (mem_entries_iff _ _ _).mp it_mem
  exact unmeasured text stats (visits.find?_of_walk_range env placed canon found).1 counted

include visits placed vacant in
/-- A newly measured endpoint has its entry on the new board unless all its slots are taken there
by others. -/
theorem lookup_publishedBy_of_fresh (canon : Canonical statMap) {ip : Ip} {port : Nat}
    (bound : port < 65536) {stats : ServerStats}
    (old : ready.table.lookup cur (endPointKey ip port) = none)
    (given : statMap.find? (endpoint2str ⟨ip, port⟩) = some stats)
    (counted : stats.totalReqCnt ≠ 0) :
    ready.table.lookup (publishedBy env hash visit cur (statMap, backup)) (endPointKey ip port) =
        some (freshEntry env stats) ∨
      ready.table.Full (publishedBy env hash visit cur (statMap, backup))
        (endPointKey ip port) := by
  have placed' := (visits.refilled placed statMap vacant).placed
  have key_eq : HashSlot.key (freshEntry env stats) = endPointKey ip port := by
    obtain ⟨ip', port', -, upper, text_eq, ip_eq, port_eq⟩ := canon _ _ given
    obtain ⟨rfl, rfl⟩ := endpoint2str_injective text_eq
    exact key_freshEntry env ip_eq port_eq
  have found : (walk visit cur (range (slotNum hash.levels)) (statMap, backup)).1.find?
      (endpoint2str ⟨ip, port⟩) = some stats := by
    rw [visits.find?_walk_range placed _ ip bound, old]
    exact given
  have apart : (walk visit cur (range (slotNum hash.levels))
      (statMap, backup)).1.entries.Pairwise fun it it' =>
        HashSlot.key (freshEntry env it.2) ≠ HashSlot.key (freshEntry env it'.2) := by
    refine (nodupKeys_iff_pairwise.mp (AList.nodupKeys _)).imp_of_mem ?_
    intro it it' it_mem it'_mem ne
    have it_given := visits.find?_of_walk_range env placed canon
      ((mem_entries_iff _ _ _).mp it_mem)
    have it'_given := visits.find?_of_walk_range env placed canon
      ((mem_entries_iff _ _ _).mp it'_mem)
    exact canon.key_freshEntry_ne env it_given.1 it'_given.1 ne
  have result := lookup_foldl_insertFresh env ready placed' apart
    ((mem_entries_iff _ _ _).mpr found) counted
  rw [key_eq] at result
  exact result

include placed vacant in
/-- A measured endpoint has an entry on the new board unless it had none and all its slots are taken
there by others. -/
theorem lookup_publishedBy_of_counted
    {change : ServerStats → StrategyShmInfo → StrategyShmInfo}
    (visits : Visits ready visit (renewWith env change)) (canon : Canonical statMap) {ip : Ip}
    {port : Nat} (bound : port < 65536) {stats : ServerStats}
    (given : statMap.find? (endpoint2str ⟨ip, port⟩) = some stats)
    (counted : stats.totalReqCnt ≠ 0) :
    (∃ info, ready.table.lookup (publishedBy env hash visit cur (statMap, backup))
        (endPointKey ip port) = some info) ∨
      ready.table.lookup cur (endPointKey ip port) = none ∧
        ready.table.Full (publishedBy env hash visit cur (statMap, backup))
          (endPointKey ip port) := by
  cases old : ready.table.lookup cur (endPointKey ip port) with
  | none =>
    rcases visits.lookup_publishedBy_of_fresh env placed vacant canon bound old given counted
      with found | full
    · exact .inl ⟨_, found⟩
    · exact .inr ⟨rfl, full⟩
  | some info =>
    obtain ⟨slot, -, holds, rfl⟩ := placed.lookup_eq_some_iff.mp old
    rw [← (entryText_of_key bound holds.1).2] at given
    rw [visits.lookup_publishedBy_of_old env placed vacant canon old,
      renewWith_of_counted given counted]
    exact .inl ⟨_, rfl⟩

end Boards

theorem walk_induction {ready : hash.Ready StrategyShmInfo}
    {visit : RoundState → StrategyShmInfo → RoundState}
    {renew : StatMap → StrategyShmInfo → Option StrategyShmInfo} {cur : Nat → StrategyShmInfo}
    (visits : Visits ready visit renew) (keeps : StrategyShmInfo → Prop) (statMap : StatMap)
    (renewed : ∀ slot info, (cur slot).keyLen ≠ 0 → renew statMap (cur slot) = some info →
      keeps info)
    (expired : ∀ slot info, (cur slot).keyLen ≠ 0 → renew ∅ (cur slot) = some info → keeps info)
    (order : List Nat) {state : RoundState}
    (part : ∀ text stats, state.1.find? text = some stats → statMap.find? text = some stats)
    (kept : ∀ slot, keeps (state.2 slot)) (slot : Nat) :
    keeps ((walk visit cur order state).2 slot) := by
  induction order generalizing state with
  | nil => exact kept slot
  | cons first order ih =>
    rw [walk, foldl_cons, ← walk]
    by_cases vacant : (cur first).keyLen = 0
    · rw [visits.vacant state (cur first) vacant]
      exact ih part kept
    · refine ih (fun text stats found => ?_) (fun slot => ?_)
      · rw [visits.stats state (cur first) text vacant] at found
        split at found
        · simp at found
        · exact part text stats found
      · rw [visits.board state (cur first) vacant]
        have ins : ∀ info, renew state.1 (cur first) = some info → keeps info := by
          intro info found
          cases given : state.1.find? (entryText (cur first)) with
          | none =>
            rw [visits.congr state.1 ∅ _ (by simpa using given)] at found
            exact expired first info vacant found
          | some stats =>
            rw [visits.congr state.1 statMap _ (given.trans (part _ _ given).symm)] at found
            exact renewed first info vacant found
        cases found : renew state.1 (cur first) with
        | none => exact kept slot
        | some info => exact ready.table.insert_forall kept (ins info found) slot

end Visits
end McBrpc
