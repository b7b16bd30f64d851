import Mathlib.Tactic.Abel
import McBrpc.LbStat.LbStatClient
import McBrpc.Library.Tally

/-!
# No count is lost within the round limit

Every counted result is in a message, in the statistics of the process, or in an entry that a
report round has collected beyond what its ten messages carry.
-/

namespace McBrpc

open Tally Execution List ServerStats KeyedMap Function

def LbStatInfo.key (info : LbStatInfo) : String :=
  LbStatClient.statsKey info.serviceName info.endpoint.ip (intOfUint32 info.endpoint.port)

namespace LbStatClient

theorem fillReq_eq (bound idx : Nat) (stats : List ServerStats) : fillReq bound idx stats =
      ((stats.take (bound - idx)).map toInfo,
        idx + (stats.take (bound - idx)).length, stats.drop (bound - idx)) := by
  induction stats generalizing idx with
  | nil => simp [fillReq]
  | cons s stats ih =>
    by_cases inside : idx < bound
    · obtain ⟨left, left_eq⟩ : ∃ left, bound - idx = left + 1 := ⟨bound - idx - 1, by omega⟩
      have rest_eq : bound - (idx + 1) = left := by omega
      rw [fillReq, if_pos inside, ih, rest_eq, left_eq]
      simp only [take_succ_cons, map_cons, length_cons, drop_succ_cons]
      congr 2
      omega
    · have none_left : bound - idx = 0 := by omega
      rw [fillReq, if_neg inside, none_left]
      simp

theorem flatMap_sendBatches_succ (batch : Int32) (round pos : Nat)
    (stats : List ServerStats) {width : Nat}
    (width_eq : batchEnd batch pos - pos = width) :
    (sendBatches batch (round + 1) pos pos stats).flatMap LbStatReportReq.infos =
      (stats.take width).map toInfo ++
        if width < stats.length then
          (sendBatches batch round (pos + width) (pos + width)
            (stats.drop width)).flatMap LbStatReportReq.infos
        else [] := by
  have sent_eq : ∀ infos : List LbStatInfo,
      (if 0 < infos.length then [LbStatReportReq.mk infos] else []).flatMap
        LbStatReportReq.infos = infos := by
    intro infos
    cases infos <;> simp
  rw [sendBatches, fillReq_eq, width_eq]
  by_cases more : width < stats.length
  · have rest_ne : stats.drop width ≠ [] := by simpa using more
    rw [if_pos more]
    simp only [if_neg rest_ne, flatMap_append, sent_eq]
    rw [length_take_of_le more.le]
  · have rest_eq : stats.drop width = [] := drop_eq_nil_of_le (not_lt.mp more)
    rw [if_neg more, append_nil]
    simp only [if_pos rest_eq, sent_eq]

/-- The number of entries that the messages of a round can carry. -/
def capacity (reportBatchNum : Int32) : Nat :=
  if reportBatchNum.toInt < 0 then (2 ^ 64 + reportBatchNum.toInt).toNat
  else 10 * reportBatchNum.toInt.toNat

variable {batch : Int32} {size : Nat} {key2stats : KeyedMap String ServerStats}
  {client : LbStatClient} {order : List String}

theorem flatMap_sendBatches_of_nonneg (size_eq : batch.toInt = size) (round pos : Nat)
    (fits : pos + round * size < 2 ^ 64) (stats : List ServerStats) :
    (sendBatches batch round pos pos stats).flatMap LbStatReportReq.infos =
      (stats.take (round * size)).map toInfo := by
  induction round generalizing pos stats with
  | zero => simp [sendBatches]
  | succ round ih =>
    have grown : (round + 1) * size = size + round * size := by ring
    have width_eq : batchEnd batch pos - pos = size := by
      rw [batchEnd, size_eq, Int.emod_eq_of_lt (by omega) (by omega)]
      omega
    rw [flatMap_sendBatches_succ _ _ _ _ width_eq, grown, take_add, map_append]
    congr 1
    by_cases more : size < stats.length
    · rw [if_pos more, ih _ (by omega)]
    · rw [if_neg more, drop_eq_nil_of_le (not_lt.mp more)]
      simp

theorem flatMap_sendBatches_of_stuck {pos : Nat} (stuck : batchEnd batch pos ≤ pos)
    (round : Nat) (stats : List ServerStats) :
    (sendBatches batch round pos pos stats).flatMap LbStatReportReq.infos = [] := by
  induction round with
  | zero => rfl
  | succ round ih =>
    rw [flatMap_sendBatches_succ _ _ _ _ (Nat.sub_eq_zero_of_le stuck)]
    simp [ih]

theorem flatMap_sendBatches (batch : Int32) (stats : List ServerStats) :
    (sendBatches batch 10 0 0 stats).flatMap LbStatReportReq.infos =
      (stats.take (capacity batch)).map toInfo := by
  have above := batch.toInt_lt
  have below := batch.le_toInt
  rw [capacity]
  split
  · next negative =>
    obtain ⟨width, width_eq⟩ : ∃ width, (2 ^ 64 + batch.toInt).toNat = width := ⟨_, rfl⟩
    have first : batchEnd batch 0 - 0 = width := by
      rw [batchEnd]
      omega
    have stuck : batchEnd batch (0 + width) ≤ 0 + width := by
      rw [batchEnd]
      omega
    rw [width_eq, flatMap_sendBatches_succ _ _ _ _ first, flatMap_sendBatches_of_stuck stuck,
      ite_self, append_nil]
  · next nonneg =>
    exact flatMap_sendBatches_of_nonneg (Int.toNat_of_nonneg (not_lt.mp nonneg)).symm 10 0
      (by omega) stats

def heldCounts (key2stats : KeyedMap String ServerStats) (key : String) : Counter → UInt32 :=
  ((key2stats.find? key).getD .new).counts

theorem heldCounts_insert (key2stats : KeyedMap String ServerStats) (key other : String)
    (stats : ServerStats) :
    heldCounts (key2stats.insert key stats) other =
      if other = key then stats.counts else heldCounts key2stats other := by
  rw [heldCounts, find?_insert]
  split <;> rfl

/-- Every entry stands under its own key. -/
def Keyed (key2stats : KeyedMap String ServerStats) : Prop :=
  ∀ key stats, key2stats.find? key = some stats → stats.toInfo.key = key

theorem Keyed.insert (keyed : Keyed key2stats) {key : String} {stats : ServerStats}
    (own : stats.toInfo.key = key) : Keyed (key2stats.insert key stats) := by
  intro other found found_eq
  rw [find?_insert] at found_eq
  split at found_eq
  · next same =>
    rw [← Option.some.inj found_eq, own, same]
  · exact keyed other found found_eq

def totals (infos : List LbStatInfo) (key : String) : Counter → UInt32 :=
  tally LbStatInfo.key LbStatInfo.counts infos key

theorem totals_append (infos infos' : List LbStatInfo) (key : String) :
    totals (infos ++ infos') key = totals infos key + totals infos' key :=
  tally_append _ _ _ _ _

/-- The counts for which an entry is collected. -/
def Busy (counts : Counter → UInt32) : Prop :=
  counts .succCnt + counts .failCnt + counts .failNetCnt + counts .failLogicCnt ≠ 0

theorem Busy.ne_zero {counts : Counter → UInt32} (busy : Busy counts) : counts ≠ 0 := by
  rintro rfl
  exact busy rfl

theorem collectStats_cons_cases (first : String) (order : List String)
    (key2stats : KeyedMap String ServerStats) :
    (¬ Busy (heldCounts key2stats first) ∧
        collectStats (first :: order) key2stats = collectStats order key2stats) ∨
      ∃ item, key2stats.find? first = some item ∧ Busy item.counts ∧
        collectStats (first :: order) key2stats =
          (item :: (collectStats order (key2stats.insert first item.clearCounters)).1,
            (collectStats order (key2stats.insert first item.clearCounters)).2) := by
  rw [heldCounts]
  cases found : key2stats.find? first with
  | none =>
    refine .inl ⟨fun busy => busy.ne_zero counts_new, ?_⟩
    simp only [collectStats, found]
  | some item =>
    by_cases idle : item.succCnt + item.failCnt + item.failNetCnt + item.failLogicCnt = 0
    · refine .inl ⟨fun busy => busy idle, ?_⟩
      simp only [collectStats, found, if_pos idle]
    · refine .inr ⟨item, rfl, idle, ?_⟩
      simp only [collectStats, found, if_neg idle]

theorem heldCounts_collectStats (order : List String) (keyed : Keyed key2stats) (key : String) :
    heldCounts key2stats key =
      totals ((collectStats order key2stats).1.map toInfo) key +
        heldCounts (collectStats order key2stats).2 key := by
  induction order generalizing key2stats with
  | nil => exact (zero_add _).symm
  | cons first order ih =>
    rcases collectStats_cons_cases first order key2stats with
      ⟨-, skipped⟩ | ⟨item, found, -, taken⟩
    · rw [skipped]
      exact ih keyed
    · have own := keyed first item found
      have cleared : Keyed (key2stats.insert first item.clearCounters) := keyed.insert own
      have rest := ih cleared
      rw [heldCounts_insert] at rest
      rw [taken, map_cons, totals, tally_cons, own, counts_toInfo, add_assoc]
      change _ = _ + (totals _ _ + _)
      rw [← rest]
      by_cases same : key = first
      · subst same
        simp [heldCounts, found]
      · rw [if_neg (Ne.symm same), if_neg same, zero_add]

theorem keyed_collectStats (order : List String) (keyed : Keyed key2stats) :
    Keyed (collectStats order key2stats).2 ∧
      ∀ key, (key2stats.find? key).isSome →
        ((collectStats order key2stats).2.find? key).isSome := by
  induction order generalizing key2stats with
  | nil => exact ⟨keyed, fun _ present => present⟩
  | cons first order ih =>
    rcases collectStats_cons_cases first order key2stats with
      ⟨-, skipped⟩ | ⟨item, found, -, taken⟩
    · rw [skipped]
      exact ih keyed
    · have cleared : Keyed (key2stats.insert first item.clearCounters) :=
        keyed.insert (keyed first item found)
      obtain ⟨keyed', kept⟩ := ih cleared
      rw [taken]
      refine ⟨keyed', fun key present => kept key ?_⟩
      rw [find?_insert]
      split
      · rfl
      · exact present

/-- Entries stand under their keys, and cached pointers point to the entries of their keys. -/
structure Consistent (client : LbStatClient) : Prop where
  keyed : Keyed client.key2stats
  cached : ∀ thread key stats, (client.localStats thread).find? key = some stats →
    stats = key ∧ (client.key2stats.find? key).isSome

theorem consistent_initial : initial.Consistent where
  keyed := by
    intro key stats found
    simp [initial] at found
  cached := by
    intro thread key stats found
    simp [initial] at found

/-- Looking up the entry of an address finds or makes the entry of its key. -/
theorem Consistent.getStatsByAddr (sound : client.Consistent) (thread : Nat)
    (name ip : String) (port : UInt32) :
    ∃ client', client.getStatsByAddr thread name ip (intOfUint32 port) =
        (client', statsKey name ip (intOfUint32 port)) ∧
      client'.Consistent ∧ client'.sent = client.sent ∧
      (client'.key2stats.find? (statsKey name ip (intOfUint32 port))).isSome ∧
      ∀ key, heldCounts client'.key2stats key = heldCounts client.key2stats key := by
  obtain ⟨key, key_eq⟩ : ∃ key, statsKey name ip (intOfUint32 port) = key := ⟨_, rfl⟩
  rw [LbStatClient.getStatsByAddr, key_eq]
  cases found : (client.localStats thread).find? key with
  | some stats =>
    obtain ⟨rfl, present⟩ := sound.cached _ _ _ found
    exact ⟨client, rfl, sound, rfl, present, fun _ => rfl⟩
  | none =>
    refine ⟨_, rfl, ⟨?_, ?_⟩, rfl, ?_, ?_⟩
    · refine sound.keyed.insert ?_
      simpa [LbStatInfo.key, toInfo] using key_eq
    · intro other key' stats cached
      dsimp only at cached ⊢
      rw [find?_modify]
      have origin : (key' = key ∧ stats = key) ∨
          (client.localStats other).find? key' = some stats := by
        by_cases own : other = thread
        · rw [own, update_self, find?_insert] at cached
          split at cached
          · next same => exact .inl ⟨same, (Option.some.inj cached).symm⟩
          · exact .inr (own ▸ cached)
        · rw [update_of_ne own] at cached
          exact .inr cached
      rcases origin with ⟨rfl, rfl⟩ | former
      · exact ⟨rfl, by rw [if_pos rfl]; rfl⟩
      · obtain ⟨stats_eq, present⟩ := sound.cached _ _ _ former
        refine ⟨stats_eq, ?_⟩
        split
        · rfl
        · exact present
    · rw [find?_modify, if_pos rfl]
      rfl
    · intro other
      rw [KeyedMap.modify, heldCounts_insert]
      split
      · next same =>
        subst same
        rfl
      · rfl

/-- The counts of a call that is not ignored. -/
def Call.counted (call : Call) : List LbStatInfo :=
  if call.Ignored then [] else [call.info]

theorem Call.key_info (call : Call) : call.info.key =
      statsKey call.serviceName call.info.endpoint.ip (intOfUint32 call.info.endpoint.port) := by
  have service_eq : call.info.serviceName = call.serviceName := by
    rw [Call.info]
    split_ifs <;> rfl
  rw [LbStatInfo.key, service_eq]

theorem Consistent.lbStatReport (sound : client.Consistent) (call : Call) :
    (client.lbStatReport call).Consistent ∧ (client.lbStatReport call).sent = client.sent ∧
      ∀ key, heldCounts (client.lbStatReport call).key2stats key =
        heldCounts client.key2stats key + totals call.counted key := by
  rw [LbStatClient.lbStatReport, Call.counted]
  split
  · exact ⟨sound, rfl, fun key => (add_zero _).symm⟩
  · obtain ⟨client', looked, consistent', sent_eq, present, held_eq⟩ :=
      sound.getStatsByAddr call.thread call.serviceName call.info.endpoint.ip
        call.info.endpoint.port
    rw [← call.key_info] at looked present
    simp only [looked]
    obtain ⟨stats, found⟩ := Option.isSome_iff_exists.mp present
    refine ⟨⟨?_, ?_⟩, sent_eq, ?_⟩
    · refine consistent'.keyed.insert ?_
      have own := consistent'.keyed _ _ found
      rw [found]
      exact own
    · intro thread key pointer cached
      obtain ⟨pointer_eq, kept⟩ := consistent'.cached thread key pointer cached
      refine ⟨pointer_eq, ?_⟩
      rw [find?_modify]
      split
      · rfl
      · exact kept
    · intro key
      rw [KeyedMap.modify, heldCounts_insert, ← held_eq, totals, tally_cons, tally_nil, add_zero]
      by_cases same : key = call.info.key
      · subst same
        rw [if_pos rfl, if_pos rfl, counts_addCounters]
        rfl
      · rw [if_neg same, if_neg (Ne.symm same), add_zero]

/-- The entries that a report round collects beyond its capacity. -/
def overflow (client : LbStatClient) (reportBatchNum : Int32) (order : List String) :
    List LbStatInfo :=
  ((collectStats order client.key2stats).1.drop (capacity reportBatchNum)).map toInfo

def sentInfos (client : LbStatClient) : List LbStatInfo :=
  client.sent.flatMap LbStatReportReq.infos

theorem Consistent.doLbReport (sound : client.Consistent) (batch : Int32)
    (order : List String) :
    (client.doLbReport batch order).Consistent ∧
      ∀ key, totals client.sentInfos key + heldCounts client.key2stats key =
        totals (client.doLbReport batch order).sentInfos key +
          heldCounts (client.doLbReport batch order).key2stats key +
          totals (client.overflow batch order) key := by
  obtain ⟨keyed, kept⟩ := keyed_collectStats order sound.keyed
  refine ⟨⟨keyed, ?_⟩, ?_⟩
  · intro thread key pointer cached
    obtain ⟨pointer_eq, present⟩ := sound.cached thread key pointer cached
    exact ⟨pointer_eq, kept key present⟩
  · intro key
    obtain ⟨stats, stats_eq⟩ : ∃ stats, (collectStats order client.key2stats).1 = stats := ⟨_, rfl⟩
    have sent_eq : (client.doLbReport batch order).sentInfos =
        client.sentInfos ++ (stats.take (capacity batch)).map toInfo := by
      rw [← stats_eq, ← flatMap_sendBatches, sentInfos, sentInfos, ← flatMap_append]
      rfl
    have split_eq : totals (stats.map toInfo) key =
        totals ((stats.take (capacity batch)).map toInfo) key +
          totals (client.overflow batch order) key := by
      rw [overflow, stats_eq, ← totals_append, ← map_append, take_append_drop]
    rw [heldCounts_collectStats order sound.keyed key, stats_eq, split_eq, sent_eq, totals_append]
    change _ = _ + heldCounts (collectStats order client.key2stats).2 key + _
    abel

def Action.counted : Action → List LbStatInfo
  | .lbStatReport call => call.counted
  | .doLbReport _ _ => []

def discarded (client : LbStatClient) : Action → List LbStatInfo
  | .lbStatReport _ => []
  | .doLbReport reportBatchNum order => client.overflow reportBatchNum order

def discardedIn : LbStatClient → List Action → List LbStatInfo
  | _, [] => []
  | client, action :: actions =>
    client.discarded action ++ discardedIn (client.step action) actions

theorem Consistent.step (sound : client.Consistent) (action : Action) :
    (client.step action).Consistent ∧
      ∀ key, totals client.sentInfos key + heldCounts client.key2stats key +
          totals action.counted key =
        totals (client.step action).sentInfos key + heldCounts (client.step action).key2stats key +
          totals (client.discarded action) key := by
  cases action with
  | lbStatReport call =>
    obtain ⟨consistent', sent_eq, held_eq⟩ := sound.lbStatReport call
    refine ⟨consistent', fun key => ?_⟩
    simp only [LbStatClient.step, sentInfos, sent_eq, held_eq, add_assoc]
    exact congrArg _ (congrArg _ (add_zero _).symm)
  | doLbReport batch order =>
    obtain ⟨consistent', moved⟩ := sound.doLbReport batch order
    exact ⟨consistent', fun key => (add_zero _).trans (moved key)⟩

theorem Consistent.run (sound : client.Consistent) (acts : List Action) (key : String) :
    totals client.sentInfos key + heldCounts client.key2stats key +
        totals (acts.flatMap Action.counted) key =
      totals (acts.foldl LbStatClient.step client).sentInfos key +
        heldCounts (acts.foldl LbStatClient.step client).key2stats key +
        totals (client.discardedIn acts) key := by
  induction acts generalizing client with
  | nil => rfl
  | cons action acts ih =>
    obtain ⟨consistent', accounted⟩ := sound.step action
    rw [flatMap_cons, totals_append, ← add_assoc, accounted, discardedIn, totals_append,
      foldl_cons, add_right_comm, ih consistent']
    abel

/-- A report round collects no more than its messages carry. -/
def WithinLimit (client : LbStatClient) : Action → Prop
  | .lbStatReport _ => True
  | .doLbReport reportBatchNum order =>
    (collectStats order client.key2stats).1.length ≤ capacity reportBatchNum

theorem discardedIn_eq_nil {acts : List Action}
    (within : EveryStep step WithinLimit client acts) : client.discardedIn acts = [] := by
  induction acts generalizing client with
  | nil => rfl
  | cons action acts ih =>
    rw [everyStep_cons] at within
    obtain ⟨here, later⟩ := within
    rw [discardedIn, ih later, append_nil]
    cases action with
    | lbStatReport call => rfl
    | doLbReport batch order =>
      rw [discarded, overflow, drop_eq_nil_of_le here, map_nil]

/-- What the calls have counted is in the messages, in the statistics of the process, or in the
entries that report rounds have collected beyond their capacity; nothing is lost in a run whose
rounds stay within it. -/
theorem totals_counted (actions : List Action) (key : String) (counter : Counter) :
    totals (actions.flatMap Action.counted) key counter =
        totals (actions.foldl step initial).sentInfos key counter +
          heldCounts (actions.foldl step initial).key2stats key counter +
          totals (initial.discardedIn actions) key counter ∧
      (EveryStep step WithinLimit initial actions →
        totals (actions.flatMap Action.counted) key counter =
          totals (actions.foldl step initial).sentInfos key counter +
            heldCounts (actions.foldl step initial).key2stats key counter) := by
  have accounted := congrFun (consistent_initial.run actions key) counter
  have nothing : totals initial.sentInfos key + heldCounts initial.key2stats key = 0 := by
    rw [heldCounts, initial, find?_empty, Option.getD_none, counts_new]
    rfl
  rw [nothing, zero_add] at accounted
  refine ⟨accounted, fun within => ?_⟩
  rw [discardedIn_eq_nil within] at accounted
  exact accounted.trans (add_zero _)

theorem busy_of_mem_collectStats {item : ServerStats}
    (mem : item ∈ (collectStats order key2stats).1) : Busy item.counts := by
  induction order generalizing key2stats with
  | nil => cases mem
  | cons first order ih =>
    rcases collectStats_cons_cases first order key2stats with
      ⟨-, skipped⟩ | ⟨stats, -, busy, taken⟩
    · rw [skipped] at mem
      exact ih mem
    · rw [taken] at mem
      rcases mem_cons.mp mem with rfl | mem
      · exact busy
      · exact ih mem

theorem length_collectStats (nodup : order.Nodup)
    (busy : ∀ key ∈ order, Busy (heldCounts key2stats key)) :
    (collectStats order key2stats).1.length = order.length := by
  induction order generalizing key2stats with
  | nil => rfl
  | cons first order ih =>
    obtain ⟨fresh, nodup_order⟩ := nodup_cons.mp nodup
    obtain ⟨here, later⟩ := forall_mem_cons.mp busy
    rcases collectStats_cons_cases first order key2stats with
      ⟨idle, -⟩ | ⟨item, -, -, taken⟩
    · exact absurd here idle
    · rw [taken, length_cons, length_cons, ih nodup_order]
      intro key mem
      have ne : key ≠ first := by
        rintro rfl
        exact fresh mem
      rw [heldCounts_insert, if_neg ne]
      exact later key mem

def echoCall (port : Nat) : Call := ⟨0, "echo", ⟨⟨10, 0, 0, 1⟩, port⟩, 0, true, 5⟩

/-- The calls to the ports from one on. -/
def echoCalls (size : Nat) : List Call := (List.range size).map fun n => echoCall (n + 1)

theorem counted_echoCalls (small : size ≤ 65535) :
    (echoCalls size).flatMap Call.counted = (echoCalls size).map Call.info := by
  have each : ∀ call ∈ echoCalls size, call.counted = [call.info] := by
    intro call call_mem
    obtain ⟨n, n_mem, rfl⟩ := mem_map.mp call_mem
    have inside := mem_range.mp n_mem
    rw [Call.counted, if_neg]
    rintro (low | high | unset)
    · exact absurd low (by simp only [echoCall]; omega)
    · exact absurd high (by simp only [echoCall]; omega)
    · have host : (ip2str ⟨10, 0, 0, 1⟩).toList.take 7 ≠ "0.0.0.0".toList := by decide
      exact host unset
  rw [flatMap_congr each, map_eq_flatMap]

theorem key_echoCall {port : Nat} (small : port ≤ 65535) :
    (echoCall port).info.key = "echo__" ++ endpoint2str ⟨⟨10, 0, 0, 1⟩, port⟩ := by
  have port_eq : intOfUint32 (echoCall port).info.endpoint.port = port := by
    show intOfUint32 (uint32OfInt (port : Int)) = port
    exact intOfUint32_uint32OfInt (by omega) (by omega)
  have names : cStr "echo" ++ "__" = "echo__" := by decide
  have host : cStr (ip2str ⟨10, 0, 0, 1⟩) = inetNtop ⟨10, 0, 0, 1⟩ := by decide
  rw [Call.key_info, statsKey, port_eq]
  show cStr "echo" ++ "__" ++ cStr (ip2str ⟨10, 0, 0, 1⟩) ++ ":" ++ toString (port : Int) = _
  rw [names, host, endpoint2str]
  simp only [String.append_assoc]

theorem nodup_key_echoCalls (small : size ≤ 65535) :
    (((echoCalls size).map Call.info).map LbStatInfo.key).Nodup := by
  rw [echoCalls, map_map, map_map]
  refine Nodup.map_on ?_ nodup_range
  intro n n_mem m m_mem same
  have n_inside := mem_range.mp n_mem
  have m_inside := mem_range.mp m_mem
  simp only [comp_apply] at same
  rw [key_echoCall (by omega), key_echoCall (by omega), String.append_right_inj] at same
  have ports := (endpoint2str_injective same).2
  omega

theorem Consistent.lbStatReports (sound : client.Consistent) (calls : List Call) :
    ((calls.map Action.lbStatReport).foldl LbStatClient.step client).Consistent ∧
      ∀ key, heldCounts ((calls.map Action.lbStatReport).foldl LbStatClient.step client).key2stats
          key = heldCounts client.key2stats key + totals (calls.flatMap Call.counted) key := by
  induction calls generalizing client with
  | nil => exact ⟨sound, fun _ => (add_zero _).symm⟩
  | cons call calls ih =>
    obtain ⟨consistent', -, held_eq⟩ := sound.lbStatReport call
    obtain ⟨final, held_final⟩ := ih consistent'
    refine ⟨final, fun key => (held_final key).trans ?_⟩
    rw [held_eq, flatMap_cons, totals_append, add_assoc]

def echoOrder (size : Nat) : List String := ((echoCalls size).map Call.info).map LbStatInfo.key

def echoClient (size : Nat) : LbStatClient :=
  ((echoCalls size).map Action.lbStatReport).foldl step initial

theorem length_collectStats_echoClient (small : size ≤ 65535) :
    (collectStats (echoOrder size) (echoClient size).key2stats).1.length = size := by
  have nodup := nodup_key_echoCalls small
  rw [echoOrder, length_collectStats nodup, length_map, length_map, echoCalls,
    length_map, length_range]
  intro key mem
  obtain ⟨info, info_mem, rfl⟩ := mem_map.mp mem
  have held_eq := (consistent_initial.lbStatReports (echoCalls size)).2 info.key
  rw [counted_echoCalls small, totals, tally_of_nodup _ _ nodup info_mem] at held_eq
  rw [echoClient, held_eq]
  obtain ⟨call, call_mem, rfl⟩ := mem_map.mp info_mem
  obtain ⟨n, -, rfl⟩ := mem_map.mp call_mem
  show (1 : UInt32) + 0 + 0 + 0 ≠ 0
  decide

theorem exists_totals_overflow_ne_zero
    (exceeding : (collectStats order client.key2stats).1.length = capacity batch + 1) :
    ∃ key, totals (client.overflow batch order) key ≠ 0 := by
  have single :
      ((collectStats order client.key2stats).1.drop (capacity batch)).length = 1 := by
    rw [length_drop, exceeding]
    omega
  obtain ⟨item, item_eq⟩ := length_eq_one_iff.mp single
  have item_mem := mem_of_mem_drop (item_eq ▸ mem_singleton_self item)
  refine ⟨item.toInfo.key, ?_⟩
  rw [overflow, item_eq, map_singleton, totals, tally_cons, if_pos rfl, tally_nil, add_zero,
    counts_toInfo]
  exact (busy_of_mem_collectStats item_mem).ne_zero

theorem totals_overflow_eq_zero {acts : List Action} {key : String}
    (before : ∀ counter, totals (acts.flatMap Action.counted) key counter =
      totals (acts.foldl step initial).sentInfos key counter +
        heldCounts (acts.foldl step initial).key2stats key counter)
    (after : ∀ counter, totals (acts.flatMap Action.counted) key counter =
      totals ((acts.foldl step initial).doLbReport batch order).sentInfos key counter +
        heldCounts ((acts.foldl step initial).doLbReport batch order).key2stats key
          counter) :
    totals ((acts.foldl step initial).overflow batch order) key = 0 := by
  have consistent :=
    foldl_invariant Consistent acts consistent_initial
      fun _ action _ consistent => (consistent.step action).1
  obtain ⟨-, moved⟩ := consistent.doLbReport batch order
  funext counter
  have balance := congrFun (moved key) counter
  rw [Pi.add_apply, ← before, after] at balance
  exact left_eq_add.mp balance

theorem exists_totals_counted_ne (small : size ≤ 65535)
    (exceeding : size = capacity batch + 1) :
    ∃ (acts : List Action) (key : String) (counter : Counter),
      totals (acts.flatMap Action.counted) key counter ≠
        totals (acts.foldl step initial).sentInfos key counter +
          heldCounts (acts.foldl step initial).key2stats key counter := by
  by_contra conserved
  push Not at conserved
  obtain ⟨key, lost⟩ :=
    exists_totals_overflow_ne_zero ((length_collectStats_echoClient small).trans exceeding)
  refine lost (totals_overflow_eq_zero (conserved _ key) fun counter => ?_)
  have after := conserved ((echoCalls size).map Action.lbStatReport ++
    [.doLbReport batch (echoOrder size)]) key counter
  rwa [flatMap_append, foldl_append, flatMap_singleton, Action.counted, append_nil] at after

/-- With the default batch size, the round after a call to each of 18001 ports loses counts. -/
theorem not_totals_counted : ¬ ∀ (actions : List Action) (key : String) (counter : Counter),
      totals (actions.flatMap Action.counted) key counter =
        totals (actions.foldl step initial).sentInfos key counter +
          heldCounts (actions.foldl step initial).key2stats key counter := by
  intro conserved
  have exceeding : 18001 = capacity 1800 + 1 := by decide
  obtain ⟨actions, key, counter, differ⟩ := exists_totals_counted_ne (by decide) exceeding
  exact differ (conserved actions key counter)

end LbStatClient
end McBrpc
