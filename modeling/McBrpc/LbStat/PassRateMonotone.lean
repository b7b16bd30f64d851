import McBrpc.LbStat.PassRateRecovery

/-!
# Pass rates grow with the successes

Two rounds over the same board and the same statistics, except that one endpoint has more successes
among as many requests, publish the same entries, except that the entry of that endpoint has no
smaller pass rate in the round with more successes.
-/

namespace McBrpc

open MultiLevelHash DefaultStrategyGenerator Binary64 ServerStats Option Int OrderedMap List

/-- Statistics of the same endpoint and number of requests, with no fewer successes. -/
structure MoreSuccesses (stats stats' : ServerStats) : Prop where
  ip_eq : stats'.ip = stats.ip
  port_eq : stats'.port = stats.port
  bounded : stats.succCnt.toNat + stats.failCnt.toNat < 2 ^ 32
  total_eq : stats'.succCnt.toNat + stats'.failCnt.toNat =
    stats.succCnt.toNat + stats.failCnt.toNat
  succ_le : stats.succCnt.toNat ≤ stats'.succCnt.toNat

namespace MoreSuccesses

variable {stats stats' : ServerStats} (more : MoreSuccesses stats stats')

include more

theorem bounded' : stats'.succCnt.toNat + stats'.failCnt.toNat < 2 ^ 32 :=
  more.total_eq.trans_lt more.bounded

theorem totalReqCnt_eq : stats'.totalReqCnt = stats.totalReqCnt := by
  rw [← UInt32.toNat_inj, toNat_totalReqCnt more.bounded',
    toNat_totalReqCnt more.bounded, more.total_eq]

theorem curPassRate_le : stats.curPassRate ≤ stats'.curPassRate := by
  have succ_le : (stats.succCnt.toNat : ℚ) ≤ stats'.succCnt.toNat := by
    exact_mod_cast more.succ_le
  have product : round (100 * stats.succCnt.toNat) ≤
      round (100 * stats'.succCnt.toNat) :=
    round_le_round (by positivity) (by linarith)
  have nonneg : 0 ≤ round (100 * stats.succCnt.toNat) :=
    round_nonneg (by positivity)
  rw [curPassRate, curPassRate, more.totalReqCnt_eq]
  exact round_le_round (by positivity) (by gcongr)

end MoreSuccesses

namespace McStrategyGenerator

variable {config : StrategyConfig} {beyond : ℚ → Int16} {stats stats' : ServerStats}

/-- The rows of the configuration reach 100 and have nondecreasing weights. -/
def Rising (config : StrategyConfig) : Prop :=
  ∀ row ∈ config.entries, (∃ item ∈ row.2.entries, 100 ≤ item.1) ∧
    ∀ item ∈ row.2.entries, ∀ item' ∈ row.2.entries, item.1 ≤ item'.1 → item.2 ≤ item'.2

theorem lookUp_le (rising : Rising config) (more : MoreSuccesses stats stats')
    (counted : stats.totalReqCnt ≠ 0) :
    (lookUp config stats = none ∧ lookUp config stats' = none) ∨
      ∃ weight weight', lookUp config stats = some weight ∧ lookUp config stats' = some weight' ∧
        weight ≤ weight' := by
  have counted' : stats'.totalReqCnt ≠ 0 := more.totalReqCnt_eq ▸ counted
  obtain ⟨nonneg, percent⟩ := floor_curPassRate_mem more.bounded counted
  obtain ⟨nonneg', percent'⟩ := floor_curPassRate_mem more.bounded' counted'
  have floor_le := floor_mono more.curPassRate_le
  rw [lookUp, lookUp, more.totalReqCnt_eq]
  cases row_eq : config.lowerBound stats.totalReqCnt.toNat with
  | none => exact .inl ⟨rfl, rfl⟩
  | some row =>
    obtain ⟨⟨last, last_mem, last_le⟩, nondecreasing⟩ :=
      rising row (mem_of_lowerBound row_eq)
    have finds (key : Nat) (key_le : key ≤ 100) : ∃ item, row.2.lowerBound key = some item := by
      refine isSome_iff_exists.mp (List.find?_isSome.mpr ⟨last, last_mem, ?_⟩)
      simpa using key_le.trans last_le
    obtain ⟨item, item_eq⟩ := finds (⌊stats.curPassRate⌋ % 2 ^ 32).toNat (by omega)
    obtain ⟨item', item_eq'⟩ := finds (⌊stats'.curPassRate⌋ % 2 ^ 32).toNat (by omega)
    have reached : (⌊stats'.curPassRate⌋ % 2 ^ 32).toNat ≤ item'.1 := by
      simpa using List.find?_some item_eq'
    have item_mem' := mem_of_lowerBound item_eq'
    refine .inr ⟨item.2, item'.2, by rw [bind_some, item_eq]; rfl,
      by rw [bind_some, item_eq']; rfl, ?_⟩
    exact nondecreasing item (mem_of_lowerBound item_eq) item' item_mem'
      (lowerBound_le item_eq item_mem' (by omega))

theorem toInt_toShort_nonpos (host : Host) {x : ℚ} (nonpos : x ≤ 0) (fits : FitsShort x) :
    (host.toShort x).toInt ≤ 0 := by
  rw [Host.toShort, if_pos fits, toShort]
  split
  · next nonneg =>
    obtain rfl := le_antisymm nonpos nonneg
    simp
  · have upper : ⌈x⌉ ≤ 0 := ceil_le.mpr (by exact_mod_cast nonpos)
    have lower : -32769 < ⌈x⌉ := lt_ceil.mpr (by exact_mod_cast fits.1)
    rw [Int16.toInt_ofInt_of_le (by omega) (by omega)]
    exact upper

theorem clamp_scaled_le {rate : Int16} {weight weight' : Int32} (lower : 1 ≤ rate.toInt)
    (weight_le : weight ≤ weight') (fits : FitsShort (scaled (ieeeHost beyond) rate weight))
    (fits' : FitsShort (scaled (ieeeHost beyond) rate weight')) :
    (max (min ((ieeeHost beyond).toShort (scaled (ieeeHost beyond) rate weight)) 100)
        0).toInt ≤
      (max (min ((ieeeHost beyond).toShort (scaled (ieeeHost beyond) rate weight'))
        100) 0).toInt := by
  have rate_pos : (0 : ℚ) < rate.toInt := by exact_mod_cast lower
  have small := weight_lt_of_fitsShort (faithful_ieeeHost beyond) lower fits'
  have weight_le' : weight.toInt ≤ weight'.toInt := Int32.le_iff_toInt_le.mp weight_le
  have factor_le : ((100 + weight).toInt : ℚ) / 100 ≤ (100 + weight').toInt / 100 := by
    rw [toInt_hundred_add small, toInt_hundred_add (by omega)]
    gcongr
  rw [toInt_clamp, toInt_clamp]
  rcases le_total ((100 + weight).toInt / 100 : ℚ) 0 with nonpos | nonneg
  · -- The smaller weight takes the whole pass rate.
    have product : scaled (ieeeHost beyond) rate weight ≤ 0 :=
      round_nonpos (mul_nonpos_of_nonneg_of_nonpos rate_pos.le (round_nonpos nonpos))
    have short := toInt_toShort_nonpos (ieeeHost beyond) product fits
    omega
  · have factor_nonneg := round_nonneg nonneg
    have product_le : scaled (ieeeHost beyond) rate weight ≤
        scaled (ieeeHost beyond) rate weight' :=
      round_le_round (mul_nonneg rate_pos.le factor_nonneg)
        (mul_le_mul_of_nonneg_left (round_le_round nonneg factor_le) rate_pos.le)
    have product_nonneg : 0 ≤ scaled (ieeeHost beyond) rate weight :=
      round_nonneg (mul_nonneg rate_pos.le factor_nonneg)
    rw [toInt_toShort_of_nonneg product_nonneg fits,
      toInt_toShort_of_nonneg (product_nonneg.trans product_le) fits']
    have floor_le := floor_mono product_le
    omega

/-- The products of a pass rate with the weights of two statistics fit `short`. -/
def ProductsFit (overflowed : ℚ → Int16) (config : StrategyConfig) (stats stats' : ServerStats)
    (passRate : Int16) : Prop :=
  ∀ weight, lookUp config stats = some weight ∨ lookUp config stats' = some weight →
    FitsShort (scaled (ieeeHost overflowed) passRate weight)

theorem passRate_change_le (rising : Rising config) (env : RoundEnv)
    (more : MoreSuccesses stats stats') (counted : stats.totalReqCnt ≠ 0) {info : StrategyShmInfo}
    (nonneg : 0 ≤ info.passRate.toInt)
    (fits : ProductsFit beyond config stats stats' info.passRate) :
    (change (ieeeHost beyond) config env stats info).passRate.toInt ≤
      (change (ieeeHost beyond) config env stats' info).passRate.toInt := by
  have rate_le := more.curPassRate_le
  rw [change, change, adjust, adjust, more.totalReqCnt_eq]
  split
  · next idle =>
    split
    · next high => rw [if_pos (high.trans_le rate_le)]
    · split
      · simp only [idle]
        decide
      · exact le_rfl
  · next active =>
    rcases lookUp_le rising more counted with ⟨none, none'⟩ | ⟨weight, weight', found, found', le⟩
    · rw [none, none']
    · have pos : 1 ≤ info.passRate.toInt := by
        have nonzero : info.passRate.toInt ≠ 0 := fun zero =>
          active (Int16.toInt_inj.mp zero)
        omega
      rw [found, found']
      exact clamp_scaled_le pos le (fits weight (.inl found)) (fits weight' (.inr found'))

/-- Entries of two boards: the same one, or entries of the key of which the second has no smaller
pass rate. -/
def Raised (key : List UInt8) (info info' : StrategyShmInfo) : Prop :=
  info = info' ∨ HashSlot.key info = key ∧ HashSlot.key info' = key ∧
    info.passRate.toInt ≤ info'.passRate.toInt

theorem Raised.key_eq {key : List UInt8} {info info' : StrategyShmInfo}
    (raised : Raised key info info') : HashSlot.key info = HashSlot.key info' := by
  rcases raised with rfl | ⟨first, second, -⟩
  · rfl
  · rw [first, second]

/-- An element of the statistics, with other statistics for one text. -/
def recount (text : String) (stats' : ServerStats) (it : Σ _ : String, ServerStats) :
    Σ _ : String, ServerStats :=
  ⟨it.1, if it.1 = text then stats' else it.2⟩

section Rounds

variable {hash : MultiLevelHash} {env : RoundEnv} {text : String} {key : List UInt8}
  {cur : Nat → StrategyShmInfo}

/-- The states of two rounds: the statistics differ in one element, the boards in its entry. -/
structure Related (text : String) (key : List UInt8) (stats stats' : ServerStats)
    (state state' : RoundState) : Prop where
  entries : state'.1.entries = state.1.entries.map (recount text stats')
  given : ∀ given, state.1.find? text = some given → given = stats
  raised : ∀ slot, Raised key (state.2 slot) (state'.2 slot)

variable {state state' : RoundState} {board board' : Nat → StrategyShmInfo}

theorem Related.find? (related : Related text key stats stats' state state') (other : String) :
    state'.1.find? other =
      (state.1.find? other).map fun given => if other = text then stats' else given := by
  refine ext fun value => ?_
  rw [← mem_def, ← mem_def, mem_def, ← KeyedMap.mem_entries_iff, related.entries, List.mem_map]
  simp only [recount, mem_def, map_eq_some_iff, ← KeyedMap.mem_entries_iff]
  constructor
  · rintro ⟨⟨_, given⟩, mem, same⟩
    obtain ⟨rfl, value_eq⟩ := Sigma.mk.inj_iff.mp same
    exact ⟨given, mem, eq_of_heq value_eq⟩
  · rintro ⟨given, mem, rfl⟩
    exact ⟨⟨other, given⟩, mem, rfl⟩

theorem Related.erase (related : Related text key stats stats' state state') (other : String)
    (raised : ∀ slot, Raised key (board slot) (board' slot)) :
    Related text key stats stats' (state.1.erase other, board) (state'.1.erase other, board') := by
  refine ⟨?_, ?_, raised⟩
  · change kerase other _ = (kerase other _).map _
    simp only [kerase, related.entries, eraseP_map]
    rfl
  · intro given found
    rw [KeyedMap.find?_erase] at found
    split at found
    · simp at found
    · exact related.given given found

variable (ready : hash.Ready StrategyShmInfo)
include ready

theorem raised_insert (raised : ∀ slot, Raised key (board slot) (board' slot))
    {info info' : StrategyShmInfo} (given : Raised key info info') (slot : Nat) :
    Raised key (ready.table.insert board info slot) (ready.table.insert board' info' slot) :=
  ProbeTable.insert_related (fun _ _ related => related.key_eq) raised given slot

theorem raised_carryOver
    (raised : ∀ slot, Raised key (board slot) (board' slot)) (info : StrategyShmInfo) (slot : Nat) :
    Raised key (carryOver env hash info board slot) (carryOver env hash info board' slot) := by
  rw [carryOver_eq ready, carryOver_eq ready]
  split
  · exact raised_insert ready raised (.inl rfl) slot
  · exact raised slot

theorem Related.rebuildSlot (rising : Rising config) (more : MoreSuccesses stats stats')
    (related : Related text key stats stats' state state') {info : StrategyShmInfo}
    (key_eq : info.keyLen ≠ 0 → entryText info = text → HashSlot.key info = key)
    (nonneg : entryText info = text → 0 ≤ info.passRate.toInt)
    (fits : entryText info = text → ProductsFit beyond config stats stats' info.passRate) :
    Related text key stats stats' (rebuildSlot (ieeeHost beyond) config env hash state info)
      (rebuildSlot (ieeeHost beyond) config env hash state' info) := by
  by_cases vacant : info.keyLen = 0
  · simpa [McStrategyGenerator.rebuildSlot, vacant] using related
  have found' := related.find? (entryText info)
  cases found : state.1.find? (entryText info) with
  | none =>
    rw [found] at found'
    have missing := @rebuildSlot_of_missing (ieeeHost beyond) config env hash
    rw [show state = (state.1, state.2) from rfl, show state' = (state'.1, state'.2) from rfl,
      missing vacant found, missing vacant found']
    exact ⟨related.entries, related.given, raised_carryOver ready related.raised info⟩
  | some given =>
    rw [found, map_some] at found'
    rw [show state = (state.1, state.2) from rfl, show state' = (state'.1, state'.2) from rfl,
      rebuildSlot_of_found _ config env ready vacant found,
      rebuildSlot_of_found _ config env ready vacant found']
    refine related.erase _ fun slot => ?_
    by_cases target : entryText info = text
    · obtain rfl := related.given given (target ▸ found)
      simp only [if_pos target, more.totalReqCnt_eq]
      split
      · next counted =>
        refine raised_insert ready related.raised (.inr ?_) slot
        refine ⟨?_, ?_, passRate_change_le rising env more counted (nonneg target) (fits target)⟩
        · exact (key_adjust _ config env given info.passRate info).trans (key_eq vacant target)
        · exact (key_adjust _ config env stats' info.passRate info).trans (key_eq vacant target)
      · exact raised_carryOver ready related.raised info slot
    · simp only [if_neg target]
      split
      · exact raised_insert ready related.raised (.inl rfl) slot
      · exact raised_carryOver ready related.raised info slot

theorem raised_insertFresh
    (more : MoreSuccesses stats stats') (key_eq : HashSlot.key (freshEntry env stats) = key)
    (key_eq' : HashSlot.key (freshEntry env stats') = key)
    {its : List (Σ _ : String, ServerStats)} (given : ∀ it ∈ its, it.1 = text → it.2 = stats)
    (raised : ∀ slot, Raised key (state.2 slot) (state'.2 slot)) (slot : Nat) :
    Raised key ((its.foldl (insertFresh env hash) state).2 slot)
      (((its.map (recount text stats')).foldl (insertFresh env hash) state').2 slot) := by
  induction its generalizing state state' with
  | nil => exact raised slot
  | cons it its ih =>
    obtain ⟨here, later⟩ := forall_mem_cons.mp given
    refine ih later fun slot => ?_
    simp only [insertFresh, recount, ready.insert_eq]
    by_cases target : it.1 = text
    · rw [if_pos target, here target, more.totalReqCnt_eq]
      split
      · next counted =>
        refine raised_insert ready raised (.inr ⟨key_eq, key_eq', ?_⟩) slot
        have counted' : stats'.totalReqCnt ≠ 0 := more.totalReqCnt_eq ▸ counted
        have rate_eq := toInt_toShort_curPassRate more.bounded counted
        have rate_eq' := toInt_toShort_curPassRate more.bounded' counted'
        simp only [freshEntry, refresh]
        rw [rate_eq, rate_eq', more.total_eq]
        exact_mod_cast Nat.div_le_div_right (Nat.mul_le_mul_left 100 more.succ_le)
      · exact raised slot
    · rw [if_neg target]
      split
      · exact raised_insert ready raised (.inl rfl) slot
      · exact raised slot

end Rounds

/-- The board that a round publishes on a segment. -/
def publishedOn (host : Host) (config : StrategyConfig) (env : RoundEnv) (shm : StrategyShm)
    (head : StrategyShmHead) (statMap : StatMap) : Nat → StrategyShmInfo :=
  publishedBy env shm.shmHash (rebuildSlot host config env shm.shmHash)
    (shm.shmBody head.curShmboardIdx) (statMap, shm.shmBody (head.curShmboardIdx + 1))

section TwoRounds

variable {overflowed : ℚ → Int16} {shm : StrategyShm} {head : StrategyShmHead} {ip : Ip}

theorem raised_publishedOn (rising : Rising config) (env : RoundEnv)
    (ready : shm.shmHash.Ready StrategyShmInfo)
    {port : Nat} {statMap statMap' : StatMap} {stats stats' : ServerStats}
    (ip_eq : stats.ip = ip2str ip) (port_eq : stats.port = port)
    (given : statMap.find? (endpoint2str ⟨ip, port⟩) = some stats)
    (more : MoreSuccesses stats stats')
    (same : statMap'.entries = statMap.entries.map (recount (endpoint2str ⟨ip, port⟩) stats'))
    (nonneg : ∀ slot, entryText (shm.shmBody head.curShmboardIdx slot) = endpoint2str ⟨ip, port⟩ →
      0 ≤ (shm.shmBody head.curShmboardIdx slot).passRate.toInt)
    (fits : ∀ slot, entryText (shm.shmBody head.curShmboardIdx slot) = endpoint2str ⟨ip, port⟩ →
      ProductsFit overflowed config stats stats'
        (shm.shmBody head.curShmboardIdx slot).passRate) (slot : Nat) :
    Raised (endPointKey ip port)
      (publishedOn (ieeeHost overflowed) config env shm head statMap slot)
      (publishedOn (ieeeHost overflowed) config env shm head statMap' slot) := by
  have start : Related (endpoint2str ⟨ip, port⟩) (endPointKey ip port) stats stats'
      (statMap, shm.shmBody (head.curShmboardIdx + 1))
      (statMap', shm.shmBody (head.curShmboardIdx + 1)) :=
    ⟨same, fun found found_eq => some.inj (found_eq.symm.trans given), fun _ => .inl rfl⟩
  have walked (order : List Nat) {state state' : RoundState}
      (related : Related (endpoint2str ⟨ip, port⟩) (endPointKey ip port)
        stats stats' state state') :
      Related (endpoint2str ⟨ip, port⟩) (endPointKey ip port) stats stats'
        (walk (rebuildSlot (ieeeHost overflowed) config env shm.shmHash)
          (shm.shmBody head.curShmboardIdx) order state)
        (walk (rebuildSlot (ieeeHost overflowed) config env shm.shmHash)
          (shm.shmBody head.curShmboardIdx) order state') := by
    induction order generalizing state state' with
    | nil => exact related
    | cons slot order ih =>
      refine ih (related.rebuildSlot ready rising more ?_ (nonneg slot) (fits slot))
      intro occupied text_eq
      obtain ⟨ips, ports⟩ := endpoint2str_injective text_eq
      rw [StrategyShmInfo.key_eq_endPointKey _ occupied, ips, ports]
  have boards := walked (range (slotNum shm.shmHash.levels)) start
  rw [publishedOn, publishedOn, publishedBy, publishedBy, boards.entries]
  refine raised_insertFresh ready more (key_freshEntry env ip_eq port_eq)
    (key_freshEntry env (more.ip_eq.trans ip_eq) (more.port_eq.trans port_eq)) ?_ boards.raised slot
  rintro ⟨text, found⟩ mem rfl
  exact boards.given found ((KeyedMap.mem_entries_iff _ _ _).mp mem)

theorem Settled.entry_publishedOn (settled : Settled shm head) (env : RoundEnv)
    {statMap : StatMap} (canon : Canonical statMap) {port : Nat} (bound : port < 65536)
    (given : statMap.find? (endpoint2str ⟨ip, port⟩) = some stats)
    (counted : stats.totalReqCnt ≠ 0) :
    (∃ info, settled.ready.table.lookup
        (publishedOn (ieeeHost overflowed) config env shm head statMap) (endPointKey ip port) =
          some info) ∨
      shm.entry head.curShmboardIdx (endPointKey ip port) = none ∧
        shm.shmHash.Taken (publishedOn (ieeeHost overflowed) config env shm head statMap)
          (endPointKey ip port) := by
  have visits := visits_rebuildSlot (ieeeHost overflowed) config env settled.ready
  rcases Visits.lookup_publishedBy_of_counted env settled.placed settled.vacant visits canon bound
    given counted with found | ⟨old, full⟩
  · exact .inl found
  · exact .inr ⟨(congrFun (StrategyShm.entry_eq settled.ready _ _ _) _).trans old,
      taken_of_full full⟩

end TwoRounds

/-- Two rounds that differ in the successes of one endpoint only switch to boards that agree in all
slots but that of the endpoint, where more successes publish no smaller pass rate.  A measured
endpoint has its entry on both, unless it had none before and others have all its slots. -/
theorem raised_updateStrategy (overflowed : ℚ → Int16) {config : StrategyConfig}
    (rising : Rising config) (env : RoundEnv) {shm : StrategyShm} {head : StrategyShmHead}
    (attached : shm.shmHead = some head) (ready : shm.shmHash.Ready StrategyShmInfo) {ip : Ip}
    {port : Nat} {statMap statMap' : StatMap} {stats stats' : ServerStats}
    (ip_eq : stats.ip = ip2str ip) (port_eq : stats.port = port)
    (given : statMap.find? (endpoint2str ⟨ip, port⟩) = some stats)
    (more : MoreSuccesses stats stats')
    (same : statMap'.entries = statMap.entries.map (recount (endpoint2str ⟨ip, port⟩) stats'))
    (nonneg : ∀ slot, entryText (shm.shmBody head.curShmboardIdx slot) = endpoint2str ⟨ip, port⟩ →
      0 ≤ (shm.shmBody head.curShmboardIdx slot).passRate.toInt)
    (fits : ∀ slot, entryText (shm.shmBody head.curShmboardIdx slot) = endpoint2str ⟨ip, port⟩ →
      ProductsFit overflowed config stats stats'
        (shm.shmBody head.curShmboardIdx slot).passRate) :
    let round := updateStrategy (ieeeHost overflowed) config env shm statMap
    let round' := updateStrategy (ieeeHost overflowed) config env shm statMap'
    let next : StrategyShmHead := { head with curShmboardIdx := head.curShmboardIdx + 1 }
    round.2.1.shmHead = some next ∧ round'.2.1.shmHead = some next ∧
    (∀ slot, Raised (endPointKey ip port) (round.2.1.shmBody next.curShmboardIdx slot)
      (round'.2.1.shmBody next.curShmboardIdx slot)) ∧
    (Settled shm head → Canonical statMap → port < 65536 → stats.totalReqCnt ≠ 0 →
      (∃ info info',
        round.2.1.entry next.curShmboardIdx (endPointKey ip port) = some info ∧
        round'.2.1.entry next.curShmboardIdx (endPointKey ip port) = some info' ∧
        info.passRate.toInt ≤ info'.passRate.toInt) ∨
      shm.entry head.curShmboardIdx (endPointKey ip port) = none ∧
        shm.shmHash.Taken (round.2.1.shmBody next.curShmboardIdx) (endPointKey ip port)) := by
  intro round round' next
  have round_eq : round.2.1 =
      shm.publish head (publishedOn (ieeeHost overflowed) config env shm head statMap) := by
    simp only [round, updateStrategy_eq _ config env attached ready, publishedOn]
  have round'_eq : round'.2.1 =
      shm.publish head (publishedOn (ieeeHost overflowed) config env shm head statMap') := by
    simp only [round', updateStrategy_eq _ config env attached ready, publishedOn]
  have raised := raised_publishedOn rising env ready ip_eq port_eq given more same nonneg fits
  have entry_eq (board : Nat → StrategyShmInfo) :
      (shm.publish head board).entry next.curShmboardIdx = ready.table.lookup board := by
    have published := StrategyShm.publish_shmBody_new shm head board
    exact (StrategyShm.entry_eq ready _ _ _).trans (congrArg ready.table.lookup published)
  rw [round_eq, round'_eq]
  refine ⟨rfl, rfl, fun slot => ?_, fun settled canon bound counted => ?_⟩
  · rw [StrategyShm.publish_shmBody_new, StrategyShm.publish_shmBody_new]
    exact raised slot
  · rw [entry_eq, entry_eq, StrategyShm.publish_shmBody_new]
    rcases settled.entry_publishedOn env canon bound given counted with ⟨info, found⟩ | taken
    · obtain ⟨info', found', higher⟩ :=
        ProbeTable.lookup_related (fun _ _ related => Raised.key_eq related) raised found
      refine .inl ⟨info, info', found, found', ?_⟩
      rcases higher with rfl | ⟨-, -, rate_le⟩
      · exact le_rfl
      · exact rate_le
    · exact .inr taken

def halfStats : ServerStats := ⟨50, 50, 0, 0, 0, "echo", "10.0.0.1", 80⟩

theorem lookUp_halfStats : lookUp (load lbStrategyConf) halfStats = some (-30) := by
  have floor_eq : ⌊halfStats.curPassRate⌋ = 50 := floor_curPassRate (by decide) (by decide)
  rw [lookUp, floor_eq]
  decide

/-- On a board where the endpoint has a pass rate of 50, a hundred successes of a hundred requests
publish no smaller one than fifty. -/
theorem raised_updateStrategy_ratedBoards : ∃ info info',
    (updateStrategy (ieeeHost fun _ => 0) (load lbStrategyConf) roundAt100 (ratedBoards 50)
        ((∅ : StatMap).insert "10.0.0.1:80" halfStats)).2.1.entry 1
          (endPointKey ⟨10, 0, 0, 1⟩ 80) = some info ∧
      (updateStrategy (ieeeHost fun _ => 0) (load lbStrategyConf) roundAt100 (ratedBoards 50)
        ((∅ : StatMap).insert "10.0.0.1:80" passingStats)).2.1.entry 1
          (endPointKey ⟨10, 0, 0, 1⟩ 80) = some info' ∧
      info.passRate.toInt ≤ info'.passRate.toInt := by
  have rates : ∀ slot, 0 ≤ ((ratedBoards 50).shmBody 0 slot).passRate.toInt ∧
      ((ratedBoards 50).shmBody 0 slot).passRate.toInt ≤ 100 := by
    rw [shmBody_ratedBoards]
    intro slot
    refine @ProbeTable.insert_forall _ _ _ _ _ (ratedEntry 50) _ ready_emptyBoards.table
      (fun info => 0 ≤ info.passRate.toInt ∧ info.passRate.toInt ≤ 100) (fun _ => ?_) ?_ slot
    · decide
    · decide
  have fits : ∀ slot, ProductsFit (fun _ => 0) (load lbStrategyConf) halfStats passingStats
      ((ratedBoards 50).shmBody 0 slot).passRate := by
    intro slot weight found
    rw [lookUp_halfStats, lookUp_passingStats] at found
    rcases found with found | found
    all_goals
      obtain rfl := some.inj found
      exact fitsShort_scaled (faithful_ieeeHost _) (rates slot).1 (rates slot).2 (by decide)
        (by decide)
  obtain ⟨-, -, -, entries⟩ := @raised_updateStrategy (fun _ => 0) (load lbStrategyConf)
    (by unfold Rising; decide) roundAt100 (ratedBoards 50) ⟨0, 0⟩ rfl ready_emptyBoards
    ⟨10, 0, 0, 1⟩ 80 ((∅ : StatMap).insert "10.0.0.1:80" halfStats)
    ((∅ : StatMap).insert "10.0.0.1:80" passingStats) halfStats passingStats (by decide) rfl
    (by decide) ⟨rfl, rfl, by decide, by decide, by decide⟩ (by decide)
    (fun slot _ => (rates slot).1) (fun slot _ => fits slot)
  rcases entries (settled_ratedBoards 50) (canonical_singleton rfl rfl) (by decide) (by decide)
    with published | ⟨missing, -⟩
  · exact published
  · rw [entry_ratedBoards] at missing
    simp at missing

end McStrategyGenerator
end McBrpc
