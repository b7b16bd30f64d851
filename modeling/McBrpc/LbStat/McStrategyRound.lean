import McBrpc.LbStat.McStrategyGenerator
import McBrpc.LbStat.StrategyRound

/-!
# Rounds of a strategy generator

A round of either generator switches to a backup board that was filled by one walk over the
current board and one loop over the remaining statistics.  The generators differ in what they make
of the entry of a measured endpoint.
-/

namespace McBrpc

open MultiLevelHash DefaultStrategyGenerator Function HashSlot

/-- The segment after a board is published over the current one. -/
def StrategyShm.publish (shm : StrategyShm) (head : StrategyShmHead)
    (board : Nat → StrategyShmInfo) : StrategyShm :=
  { shm with
    shmHead := some { head with curShmboardIdx := head.curShmboardIdx + 1 }
    shmBody := update (update shm.shmBody (head.curShmboardIdx + 1) board)
      head.curShmboardIdx (shm.shmHash.reset (shm.shmBody head.curShmboardIdx)) }

theorem StrategyShm.publish_shmBody_new (shm : StrategyShm) (head : StrategyShmHead)
    (board : Nat → StrategyShmInfo) :
    (shm.publish head board).shmBody (head.curShmboardIdx + 1) = board := by
  simp only [publish]
  rw [update_of_ne (other_board_ne head.curShmboardIdx), update_self]

theorem StrategyShm.publish_shmBody_old (shm : StrategyShm) (head : StrategyShmHead)
    (board : Nat → StrategyShmInfo) :
    (shm.publish head board).shmBody head.curShmboardIdx =
      shm.shmHash.reset (shm.shmBody head.curShmboardIdx) := by
  simp [publish]

/-- The rounding of `double` operations is exact or as good as that of binary64. -/
def Host.Faithful (host : Host) : Prop :=
  ∀ x, |host.round x - x| ≤ |x| / 2 ^ 52

/-- A machine with exact arithmetic. -/
def exactHost : Host := ⟨id, fun _ => 0⟩

theorem faithful_exactHost : exactHost.Faithful := by
  intro x
  simp only [exactHost, id, sub_self, abs_zero]
  positivity

namespace McStrategyGenerator

theorem abs_scaled_sub_le {host : Host} (faithful : host.Faithful) (passRate : Int16)
    (incr : Int32) :
    |scaled host passRate incr - passRate.toInt * ((100 + incr).toInt / 100)| ≤
      |(passRate.toInt : ℚ) * ((100 + incr).toInt / 100)| / 2 ^ 50 := by
  rw [scaled]
  generalize ((100 + incr).toInt : ℚ) / 100 = factor
  generalize (passRate.toInt : ℚ) = rate
  have outer := faithful (rate * host.round factor)
  have drift : |rate * host.round factor - rate * factor| ≤ |rate * factor| / 2 ^ 52 := by
    rw [← mul_sub, abs_mul, abs_mul, mul_div_assoc]
    gcongr
    exact faithful factor
  have size := abs_sub_abs_le_abs_sub (rate * host.round factor) (rate * factor)
  have nonneg := abs_nonneg (rate * factor)
  calc |host.round (rate * host.round factor) - rate * factor|
      ≤ |host.round (rate * host.round factor) - rate * host.round factor| +
          |rate * host.round factor - rate * factor| := abs_sub_le _ _ _
    _ ≤ |rate * host.round factor| / 2 ^ 52 + |rate * factor| / 2 ^ 52 := add_le_add outer drift
    _ ≤ |rate * factor| / 2 ^ 50 := by
        norm_num at *
        linarith

theorem toInt_clamp (x : Int16) : (max (min x 100) 0).toInt = max (min x.toInt 100) 0 := by
  have unfolded : max (min x 100) 0 =
      if (if x ≤ 100 then x else 100) ≤ 0 then 0 else if x ≤ 100 then x else 100 := rfl
  rw [unfolded]
  split_ifs with below small <;> rw [Int16.le_iff_toInt_le] at * <;> simp_all <;> omega

theorem toInt_hundred_add {incr : Int32} (upper : incr.toInt < 2 ^ 31 - 100) :
    (100 + incr).toInt = 100 + incr.toInt := by
  have lower := incr.le_toInt
  have hundred : (100 : Int32).toInt = 100 := rfl
  rw [Int32.toInt_add, hundred]
  exact Int.bmod_eq_of_le (by omega) (by omega)

theorem fitsShort_scaled {host : Host} (faithful : host.Faithful) {rate : Int16}
    {incr : Int32} (lower : 0 ≤ rate.toInt) (upper : rate.toInt ≤ 100)
    (weight_lower : -32868 ≤ incr.toInt) (weight_upper : incr.toInt ≤ 32667) :
    FitsShort (scaled host rate incr) := by
  have near := abs_scaled_sub_le faithful rate incr
  rw [toInt_hundred_add (by omega)] at near
  have product_lower : -3276800 ≤ rate.toInt * (100 + incr.toInt) := by nlinarith
  have product_upper : rate.toInt * (100 + incr.toInt) ≤ 3276700 := by nlinarith
  have product_eq : (rate.toInt : ℚ) * (((100 + incr.toInt : ℤ) : ℚ) / 100) =
      (rate.toInt * (100 + incr.toInt) : ℤ) / 100 := by
    push_cast
    ring
  rw [product_eq] at near
  have lower' : (-3276800 : ℚ) ≤ (rate.toInt * (100 + incr.toInt) : ℤ) := by
    exact_mod_cast product_lower
  have upper' : ((rate.toInt * (100 + incr.toInt) : ℤ) : ℚ) ≤ 3276700 := by
    exact_mod_cast product_upper
  generalize ((rate.toInt * (100 + incr.toInt) : ℤ) : ℚ) = product at *
  have magnitude : |product / 100| ≤ 32768 := abs_le.mpr ⟨by linarith, by linarith⟩
  have close := abs_le.mp (near.trans (div_le_div_of_nonneg_right magnitude (by positivity)))
  norm_num at close
  constructor <;> linarith

variable (host : Host) (config : StrategyConfig) (env : RoundEnv) {hash : MultiLevelHash}

/-- The entry of a measured endpoint on the new board. -/
def change (stats : ServerStats) (info : StrategyShmInfo) : StrategyShmInfo :=
  adjust host config env stats info.passRate info

theorem key_adjust (stats : ServerStats) (rate : Int16) (info : StrategyShmInfo) :
    key (adjust host config env stats rate info) = key info := by
  rw [adjust]
  split
  · split <;> rfl
  · split <;> rfl

theorem rebuildSlot_of_found (ready : hash.Ready StrategyShmInfo) {statMap : StatMap}
    {backup : Nat → StrategyShmInfo} {info : StrategyShmInfo} {stats : ServerStats}
    (used : info.keyLen ≠ 0) (found : statMap.find? (entryText info) = some stats) :
    rebuildSlot host config env hash (statMap, backup) info =
      (statMap.erase (entryText info),
        if stats.totalReqCnt ≠ 0 then ready.table.insert backup (change host config env stats info)
        else carryOver env hash info backup) := by
  rw [entryText] at found
  simp only [rebuildSlot, if_neg used, info.key2EndPoint_eq used, found]
  by_cases uncounted : stats.totalReqCnt = 0
  · simp [uncounted, entryText]
  · simp only [uncounted, ↓reduceIte, ne_eq, not_false_eq_true]
    have same_key := key_adjust host config env stats info.passRate info
    rcases ins : hash.insert backup info with ⟨board, _ | slot⟩
    · obtain ⟨rfl, full⟩ := insert_of_full ready same_key ins
      rw [change, full]
      rfl
    · rw [change, ← update_insert ready same_key ins]
      rfl

theorem rebuildSlot_of_missing {stats : StatMap} {backup : Nat → StrategyShmInfo}
    {info : StrategyShmInfo} (used : info.keyLen ≠ 0)
    (missing : stats.find? (entryText info) = none) :
    rebuildSlot host config env hash (stats, backup) info =
      (stats, carryOver env hash info backup) := by
  rw [entryText] at missing
  simp [rebuildSlot, if_neg used, info.key2EndPoint_eq used, missing]

theorem visits_rebuildSlot (ready : hash.Ready StrategyShmInfo) :
    Visits ready (rebuildSlot host config env hash) (renewWith env (change host config env)) :=
  visits_renewWith ready (fun stats info => key_adjust host config env stats info.passRate info)
    (fun state info vacant => by simp [rebuildSlot, vacant])
    (fun _ _ _ used missing => rebuildSlot_of_missing host config env used missing)
    (fun _ _ _ _ used found => rebuildSlot_of_found host config env ready used found)

theorem updateStrategy_eq {shm : StrategyShm} {head : StrategyShmHead}
    (attached : shm.shmHead = some head) (ready : shm.shmHash.Ready StrategyShmInfo)
    (stats : StatMap) :
    updateStrategy host config env shm stats =
      (0, shm.publish head (publishedBy env shm.shmHash (rebuildSlot host config env shm.shmHash)
          (shm.shmBody head.curShmboardIdx) (stats, shm.shmBody (head.curShmboardIdx + 1))),
        ∅) := by
  rw [updateStrategy, attached]
  simp only [walkLevels_range_eq ready]
  rw [insertFresh_entries_empty]
  rfl

def ratedEntry (passRate : Int16) : StrategyShmInfo :=
  { (zero : StrategyShmInfo).makeKey "10.0.0.1" 80 with passRate := passRate }

def passingStats : ServerStats := ⟨100, 0, 0, 0, 0, "echo", "10.0.0.1", 80⟩

theorem floor_passingStats : ⌊passingStats.curPassRate⌋ = 100 :=
  ServerStats.floor_curPassRate (by decide) (by decide)

end McStrategyGenerator
end McBrpc
