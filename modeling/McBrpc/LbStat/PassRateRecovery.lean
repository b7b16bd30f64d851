import Mathlib.Tactic.IntervalCases
import McBrpc.LbStat.McStrategyRound

/-!
# The recovery of a lowered pass rate

A positive weight multiplies the pass rate of an endpoint by more than one, but the product is
truncated: the pass rate rises exactly when the weight is worth a full point of it.
-/

namespace McBrpc

open MultiLevelHash DefaultStrategyGenerator HashSlot StrategyShm Int Binary64 Int16 Execution

/-- A machine with binary64 arithmetic. -/
def ieeeHost (overflowed : ℚ → Int16) : Host := ⟨Binary64.round, overflowed⟩

theorem faithful_ieeeHost (beyond : ℚ → Int16) : (ieeeHost beyond).Faithful := by
  intro x
  have error := abs_round_sub_le_mul x
  have nonneg := abs_nonneg x
  calc |Binary64.round x - x| ≤ |x| / 2 ^ 53 := error
    _ ≤ |x| / 2 ^ 52 := by gcongr <;> norm_num

namespace McStrategyGenerator

theorem cases_of_mul_eq_hundred {rate weight : ℕ} (worth : rate * weight = 100)
    (small : rate ≤ 99) :
    (rate = 50 ∧ weight = 2) ∨ (rate = 25 ∧ weight = 4) ∨ (rate = 20 ∧ weight = 5) ∨
      (rate = 10 ∧ weight = 10) ∨ (rate = 5 ∧ weight = 20) ∨ (rate = 4 ∧ weight = 25) ∨
      (rate = 2 ∧ weight = 50) ∨ (rate = 1 ∧ weight = 100) := by
  interval_cases rate <;> omega

theorem two_zpow_sub (e : ℕ) : (2 : ℚ) ^ ((e : ℤ) - 52) = 2 ^ e / 2 ^ 52 := by
  rw [zpow_sub₀ two_ne_zero, zpow_natCast]
  rfl

/-- A point is reached when a value `m` near the factor, in the binade of `2 ^ c`, reaches it with
a product in the binade of `2 ^ d`. -/
theorem succ_le_round_of_near {rate weight : ℕ} (c d m : ℕ) (pos : 0 < rate)
    (small : d ≤ 52) (lower : 2 ^ c * 100 ≤ 100 + weight) (upper : 100 + weight < 2 ^ (c + 1) * 100)
    (near : 2 * m * 2 ^ c * 100 < (100 + weight) * 2 ^ 53 + 2 ^ c * 100)
    (product_lower : 2 ^ d * 2 ^ 52 ≤ rate * m * 2 ^ c)
    (product_upper : rate * (100 + weight) * (2 ^ 53 + 1) < 2 ^ (d + 1) * 100 * 2 ^ 53)
    (product_near : 2 * (rate + 1) * 2 ^ 52 < 2 * rate * m * 2 ^ c + 2 ^ d) :
    ((rate + 1 : ℕ) : ℚ) ≤
      Binary64.round (rate * Binary64.round ((100 + weight : ℕ) / 100)) := by
  have cast_lower : (2 : ℚ) ^ c * 100 ≤ 100 + weight := by exact_mod_cast lower
  have cast_upper : (100 + weight : ℚ) < 2 ^ (c + 1) * 100 := by exact_mod_cast upper
  have cast_near : (2 * m * 2 ^ c * 100 : ℚ) < (100 + weight) * 2 ^ 53 + 2 ^ c * 100 := by
    exact_mod_cast near
  have cast_product_lower : (2 : ℚ) ^ d * 2 ^ 52 ≤ rate * m * 2 ^ c := by
    exact_mod_cast product_lower
  have cast_product_upper :
      (rate * (100 + weight) * (2 ^ 53 + 1) : ℚ) < 2 ^ (d + 1) * 100 * 2 ^ 53 := by
    exact_mod_cast product_upper
  have cast_product_near : (2 * (rate + 1) * 2 ^ 52 : ℚ) < 2 * rate * m * 2 ^ c + 2 ^ d := by
    exact_mod_cast product_near
  have whole : ((rate + 1 : ℕ) : ℚ) = ((rate + 1) * 2 ^ (52 - d) : ℤ) * 2 ^ ((d : ℤ) - 52) := by
    have split_pow : (2 : ℚ) ^ 52 = 2 ^ (52 - d) * 2 ^ d := by
      rw [← pow_add, Nat.sub_add_cancel small]
    rw [two_zpow_sub, split_pow]
    push_cast
    field_simp
  rw [whole]
  apply le_round_mul_round (c := c) (m := m)
  · exact_mod_cast pos
  · rw [zpow_natCast]
    push_cast
    linarith
  · rw [← Nat.cast_one, ← Nat.cast_add, zpow_natCast]
    push_cast
    linarith
  · rw [two_zpow_sub]
    push_cast
    linarith
  · rw [two_zpow_sub, zpow_natCast]
    push_cast
    linarith
  · rw [← Nat.cast_one, ← Nat.cast_add, zpow_natCast]
    push_cast
    linarith
  · rw [sub_mul, ← whole, two_zpow_sub, two_zpow_sub]
    push_cast
    linarith

theorem succ_le_round_of_mul_eq {rate weight : ℕ} (worth : rate * weight = 100)
    (small : rate ≤ 99) :
    ((rate + 1 : ℕ) : ℚ) ≤
      Binary64.round (rate * Binary64.round ((100 + weight : ℕ) / 100)) := by
  rcases cases_of_mul_eq_hundred worth small with ⟨rfl, rfl⟩ | ⟨rfl, rfl⟩ | ⟨rfl, rfl⟩ |
    ⟨rfl, rfl⟩ | ⟨rfl, rfl⟩ | ⟨rfl, rfl⟩ | ⟨rfl, rfl⟩ | ⟨rfl, rfl⟩
  · apply succ_le_round_of_near 0 5 4593671619917906 <;> norm_num
  · apply succ_le_round_of_near 0 4 4683743612465316 <;> norm_num
  · apply succ_le_round_of_near 0 4 4728779608739021 <;> norm_num
  · apply succ_le_round_of_near 0 3 4953959590107546 <;> norm_num
  · apply succ_le_round_of_near 0 2 5404319552844595 <;> norm_num
  · apply succ_le_round_of_near 0 2 5629499534213120 <;> norm_num
  · apply succ_le_round_of_near 0 1 6755399441055744 <;> norm_num
  · apply succ_le_round_of_near 1 1 4503599627370496 <;> norm_num

variable {weightIncr : Int32} {rate : Int16} {config : StrategyConfig} {stats : ServerStats}
  {info : StrategyShmInfo}

theorem exact_product (rate : Int16) (upper : weightIncr.toInt < 2 ^ 31 - 100) :
    (rate.toInt : ℚ) * ((100 + weightIncr).toInt / 100) =
      rate.toInt + (rate.toInt * weightIncr.toInt : ℤ) / 100 := by
  rw [toInt_hundred_add upper]
  push_cast
  ring

theorem weight_lt_of_fitsShort {host : Host} (faithful : host.Faithful)
    (pos : 1 ≤ rate.toInt) (fits : FitsShort (scaled host rate weightIncr)) :
    weightIncr.toInt < 2 ^ 31 - 100 := by
  by_contra large
  have bound := weightIncr.toInt_lt
  have hundred : (100 : Int32).toInt = 100 := rfl
  have wrapped : (100 + weightIncr).toInt = 100 + weightIncr.toInt - 2 ^ 32 := by
    rw [Int32.toInt_add, hundred, ← sub_bmod_right]
    exact bmod_eq_of_le (by omega) (by omega)
  have near := abs_scaled_sub_le faithful rate weightIncr
  have product_upper : (rate.toInt : ℚ) * ((100 + weightIncr).toInt / 100) ≤ -21474835 := by
    have factor : (100 + weightIncr).toInt ≤ -2147483500 := by omega
    have factor' : ((100 + weightIncr).toInt : ℚ) ≤ -2147483500 := by exact_mod_cast factor
    have positive' : (1 : ℚ) ≤ rate.toInt := by exact_mod_cast pos
    nlinarith
  generalize (rate.toInt : ℚ) * ((100 + weightIncr).toInt / 100) = product at *
  rw [abs_of_nonpos (by linarith : product ≤ 0)] at near
  have error := (abs_le.mp near).2
  have lower := fits.1
  norm_num at error
  linarith

variable (beyond : ℚ → Int16) (env : RoundEnv)

section Positive

variable (lower : 1 ≤ rate.toInt) (pos : 0 < weightIncr.toInt)
  (bound : weightIncr.toInt < 2 ^ 31 - 100)
include lower pos bound

theorem abs_scaled_sub_le_of_pos : (1 : ℚ) ≤ (rate.toInt * weightIncr.toInt : ℤ) ∧
      |scaled (ieeeHost beyond) rate weightIncr -
          (rate.toInt + (rate.toInt * weightIncr.toInt : ℤ) / 100)| ≤
        (rate.toInt + (rate.toInt * weightIncr.toInt : ℤ) / 100) / 2 ^ 50 := by
  have near := abs_scaled_sub_le (faithful_ieeeHost beyond) rate weightIncr
  rw [exact_product rate bound] at near
  have rate_lower : (1 : ℚ) ≤ rate.toInt := by exact_mod_cast lower
  have product_pos : (1 : ℚ) ≤ (rate.toInt * weightIncr.toInt : ℤ) := by
    exact_mod_cast (by nlinarith : 1 ≤ rate.toInt * weightIncr.toInt)
  rw [abs_of_pos (by linarith : (0 : ℚ) < _ + _ / 100)] at near
  exact ⟨product_pos, near⟩

/-- A positive weight raises the pass rate by a point exactly when it is worth one. -/
theorem succ_le_scaled_iff (upper : rate.toInt ≤ 99) :
    (rate.toInt : ℚ) + 1 ≤ scaled (ieeeHost beyond) rate weightIncr ↔
      100 ≤ rate.toInt * weightIncr.toInt := by
  obtain ⟨product_pos, near⟩ := abs_scaled_sub_le_of_pos beyond lower pos bound
  have rate_upper : (rate.toInt : ℚ) ≤ 99 := by exact_mod_cast upper
  rcases lt_trichotomy (rate.toInt * weightIncr.toInt) 100 with less | worth | more
  · have less' : ((rate.toInt * weightIncr.toInt : ℤ) : ℚ) ≤ 99 := by
      exact_mod_cast le_of_lt_add_one less
    generalize ((rate.toInt * weightIncr.toInt : ℤ) : ℚ) = product at *
    have error := (abs_le.mp near).2
    norm_num at error
    constructor
    · intro raised
      linarith
    · intro worth
      omega
  · have rate_eq : rate.toInt = (rate.toInt.toNat : ℤ) := by omega
    have weight_eq : weightIncr.toInt = (weightIncr.toInt.toNat : ℤ) := by omega
    have worth' : rate.toInt.toNat * weightIncr.toInt.toNat = 100 := by
      rw [rate_eq, weight_eq] at worth
      exact_mod_cast worth
    have raised := succ_le_round_of_mul_eq worth' (by omega)
    simp only [worth, le_refl, iff_true]
    rw [scaled, toInt_hundred_add bound, rate_eq, weight_eq]
    push_cast at raised ⊢
    exact raised
  · have more' : (101 : ℚ) ≤ (rate.toInt * weightIncr.toInt : ℤ) := by
      exact_mod_cast add_one_le_of_lt more
    generalize ((rate.toInt * weightIncr.toInt : ℤ) : ℚ) = product at *
    have error := (abs_le.mp near).1
    norm_num at error
    constructor
    · intro _
      exact more.le
    · intro _
      linarith

theorem le_scaled (upper : rate.toInt ≤ 100) :
    (rate.toInt : ℚ) ≤ scaled (ieeeHost beyond) rate weightIncr := by
  obtain ⟨product_pos, near⟩ := abs_scaled_sub_le_of_pos beyond lower pos bound
  have rate_upper : (rate.toInt : ℚ) ≤ 100 := by exact_mod_cast upper
  generalize ((rate.toInt * weightIncr.toInt : ℤ) : ℚ) = product at *
  have error := (abs_le.mp near).1
  norm_num at error
  linarith

end Positive

theorem toInt_change (host : Host) (env : RoundEnv) (lower : 1 ≤ info.passRate.toInt)
    (found : lookUp config stats = some weightIncr) :
    (change host config env stats info).passRate.toInt =
      max (min (host.toShort (scaled host info.passRate weightIncr)).toInt 100) 0 := by
  have active : info.passRate ≠ 0 := by
    intro zero
    rw [zero, toInt_zero] at lower
    omega
  rw [change, adjust, if_neg active]
  simp only [found]
  exact toInt_clamp _

theorem toInt_toShort_of_nonneg {host : Host} {x : ℚ} (nonneg : 0 ≤ x) (fits : FitsShort x) :
    (host.toShort x).toInt = ⌊x⌋ := by
  have lower : 0 ≤ ⌊x⌋ := floor_nonneg.mpr nonneg
  have upper : ⌊x⌋ < 32768 := floor_lt.mpr (by exact_mod_cast fits.2)
  rw [Host.toShort, if_pos fits, toShort, if_pos nonneg]
  exact toInt_ofInt_of_le (by omega) (by omega)

theorem toInt_change_of_fits (lower : 1 ≤ info.passRate.toInt) (upper : info.passRate.toInt ≤ 100)
    (found : lookUp config stats = some weightIncr) (pos : 0 < weightIncr.toInt)
    (fits : FitsShort (scaled (ieeeHost beyond) info.passRate weightIncr)) :
    (change (ieeeHost beyond) config env stats info).passRate.toInt =
      min ⌊scaled (ieeeHost beyond) info.passRate weightIncr⌋ 100 := by
  have bound := weight_lt_of_fitsShort (faithful_ieeeHost beyond) lower fits
  have rate_pos : (0 : ℚ) ≤ info.passRate.toInt := by
    exact_mod_cast (by omega : 0 ≤ info.passRate.toInt)
  have nonneg := rate_pos.trans (le_scaled beyond lower pos bound upper)
  have floor_nonneg := floor_nonneg.mpr nonneg
  rw [toInt_change _ env lower found, toInt_toShort_of_nonneg nonneg fits]
  omega

/-- A weight worth a point of the pass rate, whose product with it fits `short`. -/
def WorthPoint (passRate : Int16) (weightIncr : Int32) : Prop :=
  100 ≤ passRate.toInt * weightIncr.toInt ∧
    FitsShort (scaled (ieeeHost fun _ => 0) passRate weightIncr)

section Change

variable (lower : 1 ≤ info.passRate.toInt) (upper : info.passRate.toInt ≤ 99)
  (found : lookUp config stats = some weightIncr) (pos : 0 < weightIncr.toInt)
include lower upper found pos

theorem lt_change_iff : (∀ beyond, info.passRate.toInt <
        (change (ieeeHost beyond) config env stats info).passRate.toInt) ↔
      WorthPoint info.passRate weightIncr := by
  by_cases fits : FitsShort (scaled (ieeeHost fun _ => 0) info.passRate weightIncr)
  · have small := weight_lt_of_fitsShort (faithful_ieeeHost _) lower fits
    rw [WorthPoint, and_iff_left fits, ← succ_le_scaled_iff (fun _ => 0) lower pos small upper]
    have raised_iff : ∀ beyond, info.passRate.toInt <
        (change (ieeeHost beyond) config env stats info).passRate.toInt ↔
          (info.passRate.toInt : ℚ) + 1 ≤
            scaled (ieeeHost beyond) info.passRate weightIncr := by
      intro beyond
      rw [toInt_change_of_fits beyond env lower (by omega) found pos fits, lt_min_iff,
        ← add_one_le_iff, le_floor]
      push_cast
      exact and_iff_left (by omega)
    exact ⟨fun raised => (raised_iff _).mp (raised _), fun raised _ => (raised_iff _).mpr raised⟩
  · refine ⟨fun raised => ?_, fun worth => absurd worth.2 fits⟩
    have zeroed := toInt_change (ieeeHost fun _ => 0) env lower found
    have raised := raised fun _ => 0
    rw [zeroed, Host.toShort, if_neg fits] at raised
    simp only [ieeeHost, toInt_zero] at raised
    omega

theorem toInt_change_of_worthless (worthless : info.passRate.toInt * weightIncr.toInt < 100) :
    (change (ieeeHost beyond) config env stats info).passRate.toInt = info.passRate.toInt := by
  have bound : weightIncr.toInt < 2 ^ 31 - 100 := by nlinarith
  have kept := le_scaled beyond lower pos bound (by omega)
  have below : scaled (ieeeHost beyond) info.passRate weightIncr < info.passRate.toInt + 1 := by
    rw [← not_le, succ_le_scaled_iff beyond lower pos bound upper]
    omega
  have rate_lower : (1 : ℚ) ≤ info.passRate.toInt := by exact_mod_cast lower
  have rate_upper : (info.passRate.toInt : ℚ) ≤ 99 := by exact_mod_cast upper
  have fits : FitsShort (scaled (ieeeHost beyond) info.passRate weightIncr) :=
    ⟨by linarith, by linarith⟩
  have floor_eq := floor_eq_iff.mpr ⟨kept, below⟩
  rw [toInt_change_of_fits beyond env lower (by omega) found pos fits, floor_eq]
  omega

end Change

/-- The boards between two rounds: the current one is filled and the other one is empty. -/
structure Settled (shm : StrategyShm) (head : StrategyShmHead) : Prop where
  attached : shm.shmHead = some head
  ready : shm.shmHash.Ready StrategyShmInfo
  placed : ready.table.Placed (shm.shmBody head.curShmboardIdx)
  vacant : ∀ slot < slotNum shm.shmHash.levels,
    (shm.shmBody (head.curShmboardIdx + 1) slot).keyLen = 0

def switched (head : StrategyShmHead) : StrategyShmHead :=
  { head with curShmboardIdx := head.curShmboardIdx + 1 }

def applyRound (host : Host) (config : StrategyConfig) (shm : StrategyShm)
    (round : RoundEnv × StatMap) : StrategyShm :=
  (updateStrategy host config round.1 shm round.2).2.1

section Rounds

variable {host : Host} {config : StrategyConfig} {shm : StrategyShm} {head : StrategyShmHead}
  {ip : Ip} {port : Nat}

theorem Settled.applyRound_eq (fixed : Settled shm head) (round : RoundEnv × StatMap) :
    applyRound host config shm round =
      shm.publish head (publishedBy round.1 shm.shmHash
        (rebuildSlot host config round.1 shm.shmHash)
        (shm.shmBody head.curShmboardIdx) (round.2, shm.shmBody (head.curShmboardIdx + 1))) := by
  rw [applyRound, updateStrategy_eq host config round.1 fixed.attached fixed.ready]

theorem Settled.applyRound (fixed : Settled shm head) (round : RoundEnv × StatMap) :
    Settled (applyRound host config shm round) (switched head) := by
  rw [fixed.applyRound_eq]
  refine ⟨rfl, fixed.ready, ?_, fun slot inside => ?_⟩
  · rw [switched, publish_shmBody_new]
    exact (visits_rebuildSlot host config round.1 fixed.ready).placed_publishedBy round.1
      fixed.placed fixed.vacant
  · rw [switched, other_board_other, publish_shmBody_old, fixed.ready.reset_eq_zero _ inside]
    rfl

variable {info : StrategyShmInfo} {stats : ServerStats}

variable (host config) in
theorem Settled.entry_applyRound (fixed : Settled shm head) {round : RoundEnv × StatMap}
    (canon : Canonical round.2) (bound : port < 65536)
    (old : shm.entry head.curShmboardIdx (endPointKey ip port) = some info)
    (given : round.2.find? (endpoint2str ⟨ip, port⟩) = some stats)
    (counted : stats.totalReqCnt ≠ 0) :
    (McStrategyGenerator.applyRound host config shm round).entry (switched head).curShmboardIdx
      (endPointKey ip port) = some (change host config round.1 stats info) := by
  have old' : fixed.ready.table.lookup (shm.shmBody head.curShmboardIdx) (endPointKey ip port) =
      some info := by
    rw [← entry_eq fixed.ready shm.shmHead shm.shmBody]
    exact old
  obtain ⟨slot, -, holds, info_eq⟩ := fixed.placed.lookup_eq_some_iff.mp old'
  have text_eq : entryText info = endpoint2str ⟨ip, port⟩ := by
    rw [← info_eq]
    exact (entryText_of_key bound holds.1).2
  have visits := visits_rebuildSlot host config round.1 fixed.ready
  have published := visits.lookup_publishedBy_of_old round.1 fixed.placed fixed.vacant canon
    old'
  rw [renewWith_of_counted (text_eq ▸ given) counted] at published
  rw [fixed.applyRound_eq, ← published]
  exact (congrFun (entry_eq fixed.ready _ _ _) _).trans
    (congrArg (fixed.ready.table.lookup · _) (shm.publish_shmBody_new head _))

/-- The round publishes a higher pass rate for the endpoint, whatever an out-of-range conversion
yields. -/
def Rises (config : StrategyConfig) (ip : Ip) (port : Nat) (shm : StrategyShm)
    (head : StrategyShmHead) (round : RoundEnv × StatMap) (passRate : Int16) : Prop :=
  ∀ overflowed, ∃ info, (McStrategyGenerator.applyRound (ieeeHost overflowed) config shm
      round).entry (switched head).curShmboardIdx (endPointKey ip port) = some info ∧
    passRate.toInt < info.passRate.toInt

/-- The round measures the endpoint, with a positive weight that is worth a point of its current
pass rate. -/
def Lifts (config : StrategyConfig) (ip : Ip) (port : Nat) (shm : StrategyShm)
    (round : RoundEnv × StatMap) : Prop :=
  Canonical round.2 ∧ ∃ head info stats weightIncr, shm.shmHead = some head ∧
    shm.entry head.curShmboardIdx (endPointKey ip port) = some info ∧
    round.2.find? (endpoint2str ⟨ip, port⟩) = some stats ∧ stats.totalReqCnt ≠ 0 ∧
    lookUp config stats = some weightIncr ∧ 0 < weightIncr.toInt ∧
    WorthPoint info.passRate weightIncr

theorem Settled.rises_iff (fixed : Settled shm head) {round : RoundEnv × StatMap}
    (canon : Canonical round.2) (bound : port < 65536) {weightIncr : Int32}
    (old : shm.entry head.curShmboardIdx (endPointKey ip port) = some info)
    (lower : 1 ≤ info.passRate.toInt) (upper : info.passRate.toInt ≤ 99)
    (given : round.2.find? (endpoint2str ⟨ip, port⟩) = some stats) (counted : stats.totalReqCnt ≠ 0)
    (found : lookUp config stats = some weightIncr) (pos : 0 < weightIncr.toInt) :
    Rises config ip port shm head round info.passRate ↔ WorthPoint info.passRate weightIncr := by
  rw [← lt_change_iff round.1 lower upper found pos, Rises]
  refine forall_congr' fun beyond => ?_
  rw [fixed.entry_applyRound _ _ canon bound old given counted]
  simp

theorem le_toInt_change (beyond : ℚ → Int16) (env : RoundEnv) {weightIncr : Int32}
    (lower : 1 ≤ info.passRate.toInt) (upper : info.passRate.toInt ≤ 100)
    (found : lookUp config stats = some weightIncr) (pos : 0 < weightIncr.toInt)
    (worth : WorthPoint info.passRate weightIncr) :
    min (info.passRate.toInt + 1) 100 ≤
        (change (ieeeHost beyond) config env stats info).passRate.toInt ∧
      (change (ieeeHost beyond) config env stats info).passRate.toInt ≤ 100 := by
  have small := weight_lt_of_fitsShort (faithful_ieeeHost _) lower worth.2
  have kept := le_floor.mpr (le_scaled beyond lower pos small upper)
  rw [toInt_change_of_fits beyond env lower upper found pos worth.2]
  rcases upper.lt_or_eq with less | full
  · have raised := (succ_le_scaled_iff beyond lower pos small (by omega)).mpr worth.1
    have floor_raised : info.passRate.toInt + 1 ≤
        ⌊scaled (ieeeHost beyond) info.passRate weightIncr⌋ :=
      le_floor.mpr (by push_cast; exact raised)
    omega
  · omega

theorem Settled.climbs (fixed : Settled shm head) (bound : port < 65536)
    (beyond : ℚ → Int16) {rounds : List (RoundEnv × StatMap)}
    (old : shm.entry head.curShmboardIdx (endPointKey ip port) = some info)
    (lower : 1 ≤ info.passRate.toInt) (upper : info.passRate.toInt ≤ 100)
    (lifts : Execution.EveryStep (McStrategyGenerator.applyRound (ieeeHost beyond) config)
      (Lifts config ip port) shm rounds) :
    ∃ head' info',
      (rounds.foldl (McStrategyGenerator.applyRound (ieeeHost beyond) config) shm).shmHead =
          some head' ∧
        (rounds.foldl (McStrategyGenerator.applyRound (ieeeHost beyond) config) shm).entry
            head'.curShmboardIdx (endPointKey ip port) = some info' ∧
          min (info.passRate.toInt + rounds.length) 100 ≤ info'.passRate.toInt ∧
            info'.passRate.toInt ≤ 100 := by
  induction rounds generalizing shm head info with
  | nil => exact ⟨head, info, fixed.attached, old, by simp, upper⟩
  | cons round rounds ih =>
    obtain ⟨⟨canon, head', info', stats, weightIncr, attached, entry_eq, given, counted,
      found, pos, worth⟩, later⟩ := (everyStep_cons _ _ _ _ _).mp lifts
    obtain rfl : head = head' := Option.some.inj (fixed.attached.symm.trans attached)
    obtain rfl : info = info' := Option.some.inj (old.symm.trans entry_eq)
    have published := fixed.entry_applyRound (ieeeHost beyond) config canon bound old
      given counted
    obtain ⟨raised, capped⟩ := le_toInt_change beyond round.1 lower upper found pos worth
    obtain ⟨head', info', attached', entry', climbed, capped'⟩ :=
      ih (fixed.applyRound round) published (by omega) capped later
    refine ⟨head', info', attached', entry', ?_, capped'⟩
    rw [List.length_cons]
    push_cast
    omega

/-- A round with a positive weight raises the pass rate of an endpoint exactly when the weight is
worth a point of it, and enough rounds with weights that are worth a point restore it to 100. -/
theorem rises_iff_and_recovers (config : StrategyConfig) (ip : Ip) (port : Nat)
    (bound : port < 65536) :
    (∀ shm head round info stats weightIncr, Settled shm head → Canonical round.2 →
        shm.entry head.curShmboardIdx (endPointKey ip port) = some info →
        1 ≤ info.passRate.toInt → info.passRate.toInt ≤ 99 →
        round.2.find? (endpoint2str ⟨ip, port⟩) = some stats → stats.totalReqCnt ≠ 0 →
        lookUp config stats = some weightIncr → 0 < weightIncr.toInt →
        (Rises config ip port shm head round info.passRate ↔ WorthPoint info.passRate weightIncr)) ∧
      ∀ overflowed shm head info rounds, Settled shm head →
        shm.entry head.curShmboardIdx (endPointKey ip port) = some info →
        1 ≤ info.passRate.toInt → info.passRate.toInt ≤ 99 →
        Execution.EveryStep (McStrategyGenerator.applyRound (ieeeHost overflowed) config)
          (Lifts config ip port) shm rounds →
        100 - info.passRate.toInt ≤ rounds.length →
        ∃ head' info',
          (rounds.foldl (McStrategyGenerator.applyRound (ieeeHost overflowed) config) shm).shmHead =
              some head' ∧
            (rounds.foldl (McStrategyGenerator.applyRound (ieeeHost overflowed) config) shm).entry
                head'.curShmboardIdx (endPointKey ip port) = some info' ∧
              info'.passRate.toInt = 100 := by
  constructor
  · intro shm head round info stats weightIncr settled canonical old lower upper given counted found
      positive
    exact settled.rises_iff canonical bound old lower upper given counted found positive
  · intro overflowed shm head info rounds settled old lower upper lifts enough
    obtain ⟨head', info', attached, entry_eq, climbed, capped⟩ :=
      settled.climbs bound overflowed old lower (by omega) lifts
    exact ⟨head', info', attached, entry_eq, by omega⟩

end Rounds

/-- A board with one entry of the given pass rate, and an empty one. -/
def ratedBoards (passRate : Int16) : StrategyShm :=
  { emptyBoards with
    shmBody := fun board =>
      if board = 0 then
        (emptyBoards.shmHash.insert (fun _ => zero) (ratedEntry passRate)).1
      else fun _ => zero }

variable (rate : Int16)

theorem shmBody_ratedBoards : (ratedBoards rate).shmBody 0 =
      ready_emptyBoards.table.insert (fun _ => zero) (ratedEntry rate) :=
  congrArg Prod.fst (ready_emptyBoards.insert_eq (fun _ => zero) (ratedEntry rate))

theorem placed_zero : ready_emptyBoards.table.Placed fun _ => zero :=
  ready_emptyBoards.placed_of_zero fun _ _ => rfl

theorem settled_ratedBoards : Settled (ratedBoards rate) ⟨0, 0⟩ where
  attached := rfl
  ready := ready_emptyBoards
  placed := by
    rw [shmBody_ratedBoards]
    exact placed_zero.insert _
  vacant _ _ := rfl

theorem entry_ratedBoards :
    (ratedBoards rate).entry 0 (endPointKey ⟨10, 0, 0, 1⟩ 80) = some (ratedEntry rate) := by
  have found : ready_emptyBoards.table.seek (fun _ => zero)
      (key (ratedEntry rate)) =
        some (HashLevel.slot ⟨0, 2⟩ (key (ratedEntry rate))) := rfl
  have used : key (ratedEntry rate) ≠ [] := List.cons_ne_nil _ _
  have lookup_eq := placed_zero.lookup_insert used found (key (ratedEntry rate))
  rw [Ready.table_keyOf, if_pos rfl, ← shmBody_ratedBoards] at lookup_eq
  rw [← lookup_eq]
  exact congrFun (entry_eq ready_emptyBoards _ _ 0) _

def passingRound : RoundEnv × StatMap :=
  (roundAt100, (∅ : StatMap).insert "10.0.0.1:80" passingStats)

theorem canonical_passingRound : Canonical passingRound.2 := canonical_singleton rfl rfl

theorem find?_passingRound :
    passingRound.2.find? (endpoint2str ⟨⟨10, 0, 0, 1⟩, 80⟩) = some passingStats := by
  rw [passingRound, KeyedMap.find?_insert, if_pos (by decide)]

theorem lookUp_passingStats : lookUp (load lbStrategyConf) passingStats = some 80 := by
  rw [lookUp, floor_passingStats]
  decide

theorem worthPoint_of_le {rate : Int16} (lower : 2 ≤ rate.toInt)
    (upper : rate.toInt ≤ 99) : WorthPoint rate 80 := by
  have weight : (80 : Int32).toInt = 80 := rfl
  refine ⟨by rw [weight]; omega, fitsShort_scaled (faithful_ieeeHost _) ?_ ?_ ?_ ?_⟩ <;>
    omega

/-- With the configuration file of the name agent, a hundred successes raise a pass rate of 50 and
restore one of 99. -/
theorem rises_iff_and_recovers_lbStrategyConf :
    Rises (load lbStrategyConf) ⟨10, 0, 0, 1⟩ 80 (ratedBoards 50) ⟨0, 0⟩ passingRound 50 ∧
      ∃ head info,
        (applyRound (ieeeHost fun _ => 0) (load lbStrategyConf) (ratedBoards 99)
            passingRound).shmHead = some head ∧
          (applyRound (ieeeHost fun _ => 0) (load lbStrategyConf) (ratedBoards 99)
              passingRound).entry head.curShmboardIdx (endPointKey ⟨10, 0, 0, 1⟩ 80) = some info ∧
            info.passRate.toInt = 100 := by
  obtain ⟨rises, recovers⟩ := rises_iff_and_recovers (load lbStrategyConf) ⟨10, 0, 0, 1⟩ 80
    (by decide)
  constructor
  · refine (rises (ratedBoards 50) ⟨0, 0⟩ passingRound (ratedEntry 50) passingStats 80
      (settled_ratedBoards 50) canonical_passingRound (entry_ratedBoards 50) (by decide) (by decide)
      find?_passingRound (by decide) lookUp_passingStats (by decide)).mpr ?_
    exact worthPoint_of_le (by decide) (by decide)
  · refine recovers (fun _ => 0) (ratedBoards 99) ⟨0, 0⟩ (ratedEntry 99) [passingRound]
      (settled_ratedBoards 99) (entry_ratedBoards 99) (by decide) (by decide) ?_ (by decide)
    refine (everyStep_cons _ _ _ _ _).mpr ⟨?_, everyStep_nil _ _ _⟩
    exact ⟨canonical_passingRound, ⟨0, 0⟩, ratedEntry 99, passingStats, 80, rfl,
      entry_ratedBoards 99, find?_passingRound, by decide, lookUp_passingStats, by decide,
      worthPoint_of_le (by decide) (by decide)⟩

theorem Settled.stuck_at_one (beyond : ℚ → Int16) (count : Nat) {shm : StrategyShm}
    {head : StrategyShmHead} (fixed : Settled shm head) {info : StrategyShmInfo}
    (old : shm.entry head.curShmboardIdx (endPointKey ⟨10, 0, 0, 1⟩ 80) = some info)
    (low : info.passRate.toInt = 1) :
    ∃ head' info',
      ((List.replicate count passingRound).foldl
          (McStrategyGenerator.applyRound (ieeeHost beyond) (load lbStrategyConf))
          shm).shmHead = some head' ∧
        ((List.replicate count passingRound).foldl
            (McStrategyGenerator.applyRound (ieeeHost beyond) (load lbStrategyConf))
            shm).entry head'.curShmboardIdx (endPointKey ⟨10, 0, 0, 1⟩ 80) = some info' ∧
          info'.passRate.toInt = 1 := by
  induction count generalizing shm head info with
  | zero => exact ⟨head, info, fixed.attached, old, low⟩
  | succ count ih =>
    have weight : (80 : Int32).toInt = 80 := rfl
    have pos : 1 ≤ info.passRate.toInt := by rw [low]
    have small : info.passRate.toInt ≤ 99 := by rw [low]; decide
    have kept := toInt_change_of_worthless beyond passingRound.1 pos small
      lookUp_passingStats (by decide) (by rw [low, weight]; decide)
    have published := fixed.entry_applyRound (ieeeHost beyond) (load lbStrategyConf)
      canonical_passingRound (by decide) old find?_passingRound (by decide)
    exact ih (fixed.applyRound passingRound) published (kept.trans low)

/-- With the configuration file of the name agent, an endpoint with a pass rate of 1 stays there,
however often all of its requests succeed. -/
theorem not_rises_from_one : lookUp (load lbStrategyConf) passingStats = some 80 ∧
      ∀ overflowed count, ∃ head info,
        ((List.replicate count passingRound).foldl
            (applyRound (ieeeHost overflowed) (load lbStrategyConf)) (ratedBoards 1)).shmHead =
              some head ∧
          ((List.replicate count passingRound).foldl
              (applyRound (ieeeHost overflowed) (load lbStrategyConf)) (ratedBoards 1)).entry
                head.curShmboardIdx (endPointKey ⟨10, 0, 0, 1⟩ 80) = some info ∧
            info.passRate.toInt = 1 :=
  ⟨lookUp_passingStats, fun overflowed count =>
    (settled_ratedBoards 1).stuck_at_one overflowed count (entry_ratedBoards 1) rfl⟩

end McStrategyGenerator
end McBrpc
