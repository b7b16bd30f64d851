import McBrpc.LbStat.LbStatServer

/-!
# Every count is read once, or added too late

A call that adds its counts to an object after the strategy generator has taken it loses them; in
a run without such a call every count is read exactly once or still held.
-/

namespace McBrpc.LbStatSvr

open Execution Function List KeyedMap ServerStats Nat
open DefaultStrategyGenerator (emptyBoards ready_emptyBoards roundAt100)

variable (server : LbStatSvr)

/-- The objects in the map in use and in a map that is about to be read. -/
def heldStats : List Nat :=
  (server.svrStatList server.inuseIdx).values ++
    if server.swapped then (server.svrStatList (server.inuseIdx + 1)).values else []

def heldCalls : List (Nat × LbStatInfo) :=
  server.heldStats.flatMap fun stat => (server.heap stat).calls

/-- The counters of every object are the sums over its calls, and the counts of every completed
call are read by exactly one run of the generator or still held, and not both. -/
def Accounted : Prop :=
  (∀ stat, (server.heap stat).stats.counts =
      ((server.heap stat).calls.map fun call => call.2.counts).sum) ∧
    ∀ call ∈ server.completed, (server.reads.flatten ++ server.heldCalls).count call = 1

/-- A call adds its counts to an object that is still held. -/
def AddsToHeld : Action → Prop
  | .addStat call => ∀ stat info, server.pending.find? call = some (stat, info) →
      stat ∈ server.heldStats
  | _ => True

/-- What holds of a server that has lost no count. -/
structure Sound (server : LbStatSvr) : Prop where
  attached : ∃ head, server.shm.shmHead = some head
  ready : server.shm.shmHash.Ready StrategyShmInfo
  spare : server.swapped = false → server.svrStatList (server.inuseIdx + 1) = ∅
  nodup : server.heldStats.Nodup
  inside : ∀ stat ∈ server.heldStats, stat < server.allocated
  numbered : ∀ call target, server.pending.find? call = some target → call < server.nextCall
  returned : ∀ call ∈ server.completed,
    call.1 < server.nextCall ∧ server.pending.find? call.1 = none
  distinct : server.completed.Nodup
  summed : ∀ stat, (server.heap stat).stats.counts =
    ((server.heap stat).calls.map fun call => call.2.counts).sum
  placed : (server.reads.flatten ++ server.heldCalls).Perm server.completed

variable {server : LbStatSvr} {call stat : Nat} {info : LbStatInfo}

theorem Sound.accounted (sound : server.Sound) : server.Accounted := by
  refine ⟨sound.summed, ?_⟩
  intro call call_mem
  rw [sound.placed.count_eq, count_eq_one_of_mem sound.distinct call_mem]

theorem sound_initial {shm : StrategyShm} {head : StrategyShmHead}
    (attached : shm.shmHead = some head) (ready : shm.shmHash.Ready StrategyShmInfo) :
    (initial shm).Sound where
  attached := ⟨head, attached⟩
  ready := ready
  spare := fun _ => rfl
  nodup := nodup_nil
  inside := fun _ stat_mem => absurd stat_mem not_mem_nil
  numbered := by
    intro call target found
    simp [initial] at found
  returned := fun _ call_mem => absurd call_mem not_mem_nil
  distinct := nodup_nil
  summed := fun _ => counts_new
  placed := .refl _

theorem Sound.register (sound : server.Sound) (stat : Nat) (info : LbStatInfo) : { server with
      pending := server.pending.insert server.nextCall (stat, info)
      nextCall := server.nextCall + 1 : LbStatSvr }.Sound where
  __ := sound
  numbered := by
    intro call target found
    rw [find?_insert] at found
    split at found
    · next same => exact same ▸ lt_succ_self _
    · exact lt_succ_of_lt (sound.numbered call target found)
  returned := by
    intro call call_mem
    obtain ⟨older, absent⟩ := sound.returned call call_mem
    refine ⟨lt_succ_of_lt older, ?_⟩
    rw [find?_insert, if_neg older.ne, absent]

/-- A new object in the map in use. -/
def allocate (server : LbStatSvr) (key : String) (stats : ServerStats) : LbStatSvr :=
  { server with
    svrStatList := update server.svrStatList server.inuseIdx
      ((server.svrStatList server.inuseIdx).insert key server.allocated)
    heap := update server.heap server.allocated ⟨stats, []⟩
    allocated := server.allocated + 1 }

theorem heldStats_allocate {key : String} (stats : ServerStats)
    (missing : (server.svrStatList server.inuseIdx).find? key = none) :
    (server.allocate key stats).heldStats = server.allocated :: server.heldStats := by
  simp [heldStats, allocate, values_insert_of_find?_none missing]

theorem Sound.allocate (sound : server.Sound) {key : String} {stats : ServerStats}
    (fresh : stats.counts = 0) (missing : (server.svrStatList server.inuseIdx).find? key = none) :
    (server.allocate key stats).Sound := by
  have held_eq := heldStats_allocate stats missing
  have older : ∀ stat ∈ server.heldStats, stat ≠ server.allocated :=
    fun stat stat_mem => (sound.inside stat stat_mem).ne
  have calls_eq : (server.allocate key stats).heldCalls = server.heldCalls := by
    rw [heldCalls, held_eq, flatMap_cons]
    simp only [LbStatSvr.allocate, update_self, nil_append]
    refine flatMap_congr fun stat stat_mem => ?_
    rw [update_of_ne (older stat stat_mem)]
  exact
    { __ := sound
      spare := by
        intro idle
        exact (update_of_ne (other_board_ne _) _ _).trans (sound.spare idle)
      nodup := by
        rw [held_eq, nodup_cons]
        exact ⟨fun mem => older _ mem rfl, sound.nodup⟩
      inside := by
        rw [held_eq]
        intro stat stat_mem
        rcases mem_cons.mp stat_mem with rfl | stat_mem
        · exact lt_succ_self _
        · exact lt_succ_of_lt (sound.inside stat stat_mem)
      summed := by
        intro stat
        by_cases same : stat = server.allocated
        · simp [LbStatSvr.allocate, same, fresh]
        · simp [LbStatSvr.allocate, update_of_ne same, sound.summed]
      placed := by
        rw [calls_eq]
        exact sound.placed }

theorem Sound.findStat (sound : server.Sound) (info : LbStatInfo) :
    (server.findStat info).Sound := by
  rw [LbStatSvr.findStat]
  cases found : (server.svrStatList server.inuseIdx).find? (statKey info) with
  | some stat => exact sound.register stat info
  | none =>
    refine (sound.allocate ?_ found).register server.allocated info
    funext counter
    cases counter <;> rfl

theorem flatMap_update_perm {β : Type*} {places : List Nat} (nodup : places.Nodup) {place : Nat}
    (place_mem : place ∈ places) (content : Nat → List β) (extra : β) :
    (places.flatMap (update content place (extra :: content place))).Perm
      (extra :: places.flatMap content) := by
  induction places with
  | nil => cases place_mem
  | cons first rest ih =>
    obtain ⟨fresh, nodup_rest⟩ := nodup_cons.mp nodup
    rw [flatMap_cons, flatMap_cons]
    rcases mem_cons.mp place_mem with rfl | place_mem
    · have same : rest.flatMap (update content place (extra :: content place)) =
          rest.flatMap content := by
        refine flatMap_congr fun other mem => ?_
        rw [update_of_ne]
        rintro rfl
        exact fresh mem
      rw [update_self, same]
      exact .refl _
    · have ne : first ≠ place := by
        rintro rfl
        exact fresh place_mem
      rw [update_of_ne ne]
      exact ((ih nodup_rest place_mem).append_left _).trans perm_middle

theorem addStat_eq (found : server.pending.find? call = some (stat, info)) : server.addStat call =
      { server with
        heap := update server.heap stat
          ⟨(server.heap stat).stats.addCounters info, (call, info) :: (server.heap stat).calls⟩
        pending := server.pending.erase call
        completed := (call, info) :: server.completed } := by
  rw [LbStatSvr.addStat, found]

theorem heldCalls_addStat (found : server.pending.find? call = some (stat, info)) :
    (server.addStat call).heldCalls =
      server.heldStats.flatMap (update (fun place => (server.heap place).calls) stat
        ((call, info) :: (server.heap stat).calls)) := by
  rw [addStat_eq found, heldCalls]
  refine flatMap_congr fun place _ => ?_
  by_cases same : place = stat
  · subst same
    simp only [update_self]
  · simp [update_of_ne same]

section

variable (sound : server.Sound)
include sound

theorem Sound.fresh (found : server.pending.find? call = some (stat, info))
    (info' : LbStatInfo) : (call, info') ∉ server.completed := by
  intro call_mem
  have absent := (sound.returned _ call_mem).2
  rw [found] at absent
  cases absent

theorem Sound.addStat (held : server.AddsToHeld (.addStat call)) : (server.addStat call).Sound := by
  cases found : server.pending.find? call with
  | none =>
    rw [LbStatSvr.addStat, found]
    exact sound
  | some target =>
    obtain ⟨stat, info⟩ := target
    have added : (server.addStat call).heldCalls.Perm ((call, info) :: server.heldCalls) := by
      rw [heldCalls_addStat found]
      exact flatMap_update_perm sound.nodup (held stat info found) _ _
    rw [addStat_eq found] at added ⊢
    exact
      { __ := sound
        numbered := by
          intro other target still
          rw [find?_erase] at still
          split at still
          · cases still
          · exact sound.numbered other target still
        returned := by
          intro other mem
          rw [find?_erase]
          rcases mem_cons.mp mem with rfl | mem
          · exact ⟨sound.numbered _ _ found, if_pos rfl⟩
          · obtain ⟨older, absent⟩ := sound.returned other mem
            rw [absent, ite_self]
            exact ⟨older, rfl⟩
        distinct := nodup_cons.mpr ⟨sound.fresh found info, sound.distinct⟩
        summed := by
          intro place
          by_cases same : place = stat
          · simp only [same, update_self, counts_addCounters, map_cons,
              sum_cons, sound.summed stat, add_comm]
          · simp only [update_of_ne same, sound.summed]
        placed := by
          refine (added.append_left _).trans (perm_middle.trans ?_)
          exact sound.placed.cons _ }

theorem Sound.not_accounted_addStat
    (found : server.pending.find? call = some (stat, info)) (gone : stat ∉ server.heldStats)
    : ¬ (server.addStat call).Accounted := by
  rintro ⟨-, accounted⟩
  have same : (server.addStat call).heldCalls = server.heldCalls := by
    rw [heldCalls_addStat found]
    refine flatMap_congr fun place mem => ?_
    rw [update_of_ne]
    rintro rfl
    exact gone mem
  have absent : (call, info) ∉ server.reads.flatten ++ server.heldCalls := by
    rw [sound.placed.mem_iff]
    exact sound.fresh found info
  have once := accounted (call, info) (by rw [addStat_eq found]; exact mem_cons_self)
  have reads_eq : (server.addStat call).reads = server.reads := by rw [addStat_eq found]
  rw [reads_eq, same, count_eq_zero_of_not_mem absent] at once
  cases once

theorem Sound.swapSvrStat (idle : server.swapped = false) : server.swapSvrStat.Sound := by
  have held_eq : server.swapSvrStat.heldStats = server.heldStats := by
    simp only [heldStats, LbStatSvr.swapSvrStat, if_pos, sound.spare idle, other_board_other, idle,
      Bool.false_eq_true, if_false, append_nil]
    rfl
  have calls_eq : server.swapSvrStat.heldCalls = server.heldCalls := by
    rw [heldCalls, held_eq]
    rfl
  exact
    { __ := sound
      spare := fun running => by cases running
      nodup := held_eq ▸ sound.nodup
      inside := held_eq ▸ sound.inside
      placed := by
        rw [calls_eq]
        exact sound.placed }

theorem Sound.generateStrategy_eq (env : RoundEnv) :
    ∃ shm : StrategyShm, (∃ head, shm.shmHead = some head) ∧
      shm.shmHash = server.shm.shmHash ∧
      server.generateStrategy env =
        { server with
          svrStatList := update server.svrStatList (server.inuseIdx + 1) ∅
          swapped := false
          shm := shm
          reads := server.reads ++ [(server.svrStatList (server.inuseIdx + 1)).values.flatMap
            fun stat => (server.heap stat).calls] } := by
  obtain ⟨head, attached⟩ := sound.attached
  obtain ⟨shm, result, attached', hash_eq⟩ : ∃ shm,
      DefaultStrategyGenerator.updateStrategy env server.shm
          ((server.svrStatList (server.inuseIdx + 1)).mapValues
            fun stat => (server.heap stat).stats) = (0, shm, ∅) ∧
        (∃ head, shm.shmHead = some head) ∧ shm.shmHash = server.shm.shmHash :=
    ⟨_, DefaultStrategyGenerator.updateStrategy_eq env attached sound.ready _, ⟨_, rfl⟩, rfl⟩
  refine ⟨shm, attached', hash_eq, ?_⟩
  simp only [LbStatSvr.generateStrategy, result, find?_empty, Option.isNone_none,
    Option.isSome_none]
  rw [filterKeys_of_forall fun _ => rfl, filterKeys_of_forall_not fun _ => rfl]

theorem Sound.generateStrategy (running : server.swapped = true)
    (env : RoundEnv) : (server.generateStrategy env).Sound := by
  obtain ⟨shm, attached, hash_eq, server_eq⟩ := sound.generateStrategy_eq env
  have held_eq : server.heldStats = (server.svrStatList server.inuseIdx).values ++
      (server.svrStatList (server.inuseIdx + 1)).values := by
    rw [heldStats, if_pos running]
  have left_eq : (server.generateStrategy env).heldStats =
      (server.svrStatList server.inuseIdx).values := by
    rw [server_eq]
    simp [heldStats]
  have calls_eq : (server.generateStrategy env).heldCalls =
      (server.svrStatList server.inuseIdx).values.flatMap fun stat => (server.heap stat).calls := by
    rw [heldCalls, left_eq, server_eq]
  have sublist : (server.generateStrategy env).heldStats.Sublist server.heldStats := by
    rw [left_eq, held_eq]
    exact sublist_append_left _ _
  have nodup := sound.nodup.sublist sublist
  have inside := fun stat stat_mem => sound.inside stat (sublist.subset stat_mem)
  have placed : ((server.generateStrategy env).reads.flatten ++
      (server.generateStrategy env).heldCalls).Perm server.completed := by
    refine List.Perm.trans ?_ sound.placed
    rw [calls_eq, server_eq, heldCalls, held_eq, flatMap_append]
    simp only [flatten_append, flatten_cons, flatten_nil, append_nil, append_assoc]
    exact perm_append_comm.append_left _
  rw [server_eq] at nodup inside placed ⊢
  exact
    { __ := sound
      attached := attached
      ready := hash_eq ▸ sound.ready
      spare := fun _ => update_self _ _ _
      nodup := nodup
      inside := inside
      placed := placed }

theorem Sound.step {action : Action} (held : server.AddsToHeld action)
    : (server.step action).Sound := by
  cases action with
  | findStat info => exact sound.findStat info
  | addStat call => exact sound.addStat held
  | swapSvrStat =>
    rw [LbStatSvr.step]
    split
    · exact sound
    · next idle => exact sound.swapSvrStat (Bool.eq_false_of_not_eq_true idle)
  | generateStrategy env =>
    rw [LbStatSvr.step]
    split
    · next running => exact sound.generateStrategy running env
    · exact sound

end

def echoInfo : LbStatInfo := ⟨⟨"10.0.0.1", 80⟩, "echo", 1, 0, 0, 0, 5⟩

/-- A call has found its object, and the map of the object is swapped out. -/
def overtaken : LbStatSvr := ((initial emptyBoards).findStat echoInfo).swapSvrStat

theorem sound_overtaken : overtaken.Sound :=
  ((sound_initial rfl ready_emptyBoards).findStat echoInfo).swapSvrStat rfl

end McBrpc.LbStatSvr
