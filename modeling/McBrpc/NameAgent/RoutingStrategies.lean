import McBrpc.NameAgent.IndexAgreement

/-!
# Answers of the routing strategies

The strategies read different indexes of the table: the lists by region, or the lists by region and
group.  A history of calls whose removals are those of registered servers keeps all indexes in step
with the registrations, and no index keeps a map without entries.
-/

namespace McBrpc
namespace NameServiceProxy

open Execution GroupStrategy KeyedMap Option List

/-- The registrations after a call; an endpoint is registered once. -/
def register (registrations : List Registration) : Call → List Registration
  | .addServer serviceName info =>
    if ∃ registration ∈ registrations, registration.info.endpoint = info.endpoint then
      registrations
    else registrations ++ [⟨serviceName, info⟩]
  | .removeServer serviceName info => registrations.filter (· ≠ ⟨serviceName, info⟩)

/-- A removal is that of a registration, or of an endpoint without one. -/
def RemovesOwn (registrations : List Registration) : Call → Prop
  | .addServer _ _ => True
  | .removeServer serviceName info =>
    (∃ registration ∈ registrations, registration.info.endpoint = info.endpoint) →
      ⟨serviceName, info⟩ ∈ registrations

instance decidableRemovesOwn (registrations : List Registration) :
    ∀ call, Decidable (RemovesOwn registrations call)
  | .addServer _ _ => .isTrue trivial
  | .removeServer _ _ => inferInstanceAs (Decidable (_ → _))

/-- No service and region is kept with an empty map of groups. -/
def NoVacant (proxy : NameServiceProxy) : Prop :=
  ∀ service region groups, proxy.groupsEntry service region = some groups →
    vacantMap groups = false

theorem vacantMap_eq_false {α β : Type*} [DecidableEq α] {map : KeyedMap α β} {key : α}
    (found : map.find? key ≠ none) : vacantMap map = false :=
  Bool.eq_false_iff.mpr fun vacant => found (find?_of_vacantMap vacant key)

section Steps

variable {proxy : NameServiceProxy} {name : String} {info : InstanceInfo}

theorem NoVacant.addServer (noVacant : NoVacant proxy) :
    NoVacant (proxy.addServer name info) := by
  by_cases known : info.endpoint ∈ proxy.endPoints
  · rwa [addServer_of_known known]
  · intro service region groups found
    simp only [NameServiceProxy.addServer, known, if_false, groupsEntry, emplaceByRegionAndGroup,
      find?_modify] at found
    by_cases sameService : service = name
    · rw [if_pos sameService, Option.bind_some, find?_modify] at found
      by_cases sameRegion : region = info.regionId
      · rw [if_pos sameRegion] at found
        obtain rfl := some.inj found
        refine @vacantMap_eq_false _ _ _ _ info.groupId ?_
        rw [find?_modify, if_pos rfl]
        exact some_ne_none _
      · rw [if_neg sameRegion] at found
        cases stored : proxy.instancesByRegionAndGroup.find? name with
        | none =>
          rw [stored] at found
          exact absurd found (by simp)
        | some regions =>
          rw [stored] at found
          refine noVacant name region groups ?_
          rw [groupsEntry, stored]
          exact found
    · rw [if_neg sameService] at found
      exact noVacant service region groups found

theorem NoVacant.removeServer (noVacant : NoVacant proxy) :
    NoVacant (proxy.removeServer name info) := by
  have unchanged (same : removeByRegionAndGroup proxy.instancesByRegionAndGroup name info =
      proxy.instancesByRegionAndGroup) : NoVacant (proxy.removeServer name info) := by
    intro service region groups found
    refine noVacant service region groups ?_
    rwa [groupsEntry, NameServiceProxy.removeServer, same] at found
  cases foundService : proxy.instancesByRegionAndGroup.find? name with
  | none => exact unchanged (by simp [removeByRegionAndGroup, foundService])
  | some regions =>
    cases foundRegion : regions.find? info.regionId with
    | none => exact unchanged (by simp [removeByRegionAndGroup, foundService, foundRegion])
    | some groups =>
      cases foundGroup : groups.find? info.groupId with
      | none =>
        exact unchanged
          (by simp [removeByRegionAndGroup, foundService, foundRegion, foundGroup])
      | some eps =>
        intro service region groups' found
        simp only [groupsEntry, NameServiceProxy.removeServer, removeByRegionAndGroup,
          foundService, foundRegion, foundGroup] at found
        rw [bind_find?_settle _ _ _ fun vacant => by rw [find?_of_vacantMap vacant]] at found
        by_cases sameService : service = name
        · rw [if_pos sameService, find?_settle] at found
          split at found
          · obtain ⟨used, same⟩ := ite_none_left_eq_some.mp found
            obtain rfl := some.inj same
            exact Bool.eq_false_iff.mpr used
          · refine noVacant name region groups' ?_
            rw [groupsEntry, foundService]
            exact found
        · rw [if_neg sameService] at found
          exact noVacant service region groups' found

theorem Represents.execute {regs : List Registration}
    (rep : Represents regs proxy) (noVacant : NoVacant proxy) {call : Call}
    (own : RemovesOwn regs call) :
    Represents (register regs call) (proxy.execute call) ∧
      NoVacant (proxy.execute call) := by
  cases call with
  | addServer name info =>
    refine ⟨?_, noVacant.addServer⟩
    rw [register]
    split
    · next known =>
      rwa [NameServiceProxy.execute, addServer_of_known ((rep.endPoints _).mpr known)]
    · next unknown =>
      exact rep.addServer fun known => unknown ((rep.endPoints _).mp known)
  | removeServer name info =>
    exact ⟨rep.removeServer fun known => own ((rep.endPoints _).mp known), noVacant.removeServer⟩

theorem represents_run {calls : List Call} {regs : List Registration}
    (rep : Represents regs proxy) (noVacant : NoVacant proxy)
    (own : EveryStep register RemovesOwn regs calls) :
    Represents (calls.foldl register regs) (calls.foldl NameServiceProxy.execute proxy) ∧
      NoVacant (calls.foldl NameServiceProxy.execute proxy) := by
  induction calls generalizing regs proxy with
  | nil => exact ⟨rep, noVacant⟩
  | cons call calls ih =>
    obtain ⟨here, later⟩ := (everyStep_cons ..).mp own
    obtain ⟨represents', noVacant'⟩ := rep.execute noVacant here
    exact ih represents' noVacant' later

end Steps

/-- How the answers of the strategies to one request are related: `answer` is the answer by
strategy. -/
structure Routed (registrations : List Registration) (service : String) (region group : UInt32)
    (answer : UInt32 → ResCode × List String) : Prop where
  normal_self : (answer selfGroup.code).2 ≠ [] →
    answer GroupStrategy.normal.code = answer selfGroup.code
  normal_region : (answer selfGroup.code).2 = [] →
    (answer GroupStrategy.normal.code).1 = (answer groupsOneRegion.code).1 ∧
      (answer GroupStrategy.normal.code).2.Perm (answer groupsOneRegion.code).2
  self_sublist :
    (answer selfGroup.code).2.Sublist (answer groupsOneRegion.code).2
  self_notFound : (answer selfGroup.code).1 = .notFound ↔
    listed registrations (inGroup service region group) = []
  region_notFound : (answer groupsOneRegion.code).1 = .notFound ↔
    listed registrations (inRegion service region) = []
  normal_notFound : (answer GroupStrategy.normal.code).1 = .notFound ↔
    listed registrations (inRegion service region) = []
  success : ∀ strategy, (answer strategy).1 = .success → (answer strategy).2 ≠ []

section Answers

variable {regs : List Registration} {proxy : NameServiceProxy} {service : String}
  {region group : UInt32}

def codeOf (endpoints : List String) : ResCode := if endpoints = [] then .notFound else .success

theorem codeOf_eq_notFound {eps : List String} :
    codeOf eps = .notFound ↔ eps = [] := by
  cases eps <;> simp [codeOf]

theorem ne_nil_of_codeOf {eps : List String} (success : codeOf eps = .success) :
    eps ≠ [] := by
  rintro rfl
  simp [codeOf] at success

variable (rep : Represents regs proxy)
include rep

theorem Represents.getServers_oneRegion :
    proxy.getServers region group service groupsOneRegion.code [] =
      (codeOf (listed regs (inRegion service region)), listed regs (inRegion service region)) := by
  rw [getServers, if_pos rfl, rep.byRegion]
  cases listed regs (inRegion service region) <;> rfl

theorem Represents.getServers_selfGroup : proxy.getServers region group service selfGroup.code [] =
      (codeOf (listed regs (inGroup service region group)),
        listed regs (inGroup service region group)) := by
  have other : selfGroup.code ≠ groupsOneRegion.code := by decide
  rw [getServers, if_neg other, if_pos rfl, rep.byGroup]
  cases listed regs (inGroup service region group) <;> rfl

/-- Any other strategy takes the own group first and all groups of the region otherwise. -/
theorem Represents.getServers_normal (noVacant : NoVacant proxy) {strategy : UInt32}
    (notRegion : strategy ≠ groupsOneRegion.code)
    (notSelf : strategy ≠ selfGroup.code) :
    ∃ endpoints, proxy.getServers region group service strategy [] = (codeOf endpoints, endpoints) ∧
      (listed regs (inGroup service region group) ≠ [] →
        endpoints = listed regs (inGroup service region group)) ∧
      (listed regs (inGroup service region group) = [] →
        endpoints.Perm (listed regs (inRegion service region))) := by
  rw [getServers, if_neg notRegion, if_neg notSelf, rep.byGroup]
  cases self : listed regs (inGroup service region group) with
  | cons first rest => exact ⟨first :: rest, rfl, fun _ => rfl, fun empty => by simp at empty⟩
  | nil =>
    have perm := rep.indexesAgree.region_perm service region
    rw [regionList, rep.byRegion, getD_stored, groupLists] at perm
    simp only [stored, isEmpty_nil, if_true]
    cases found : proxy.groupsEntry service region with
    | none =>
      rw [found] at perm
      exact ⟨[], rfl, fun ne => absurd rfl ne, fun _ => perm.symm⟩
    | some groups =>
      rw [found] at perm
      refine ⟨groups.values.flatten, ?_, fun ne => absurd rfl ne,
        fun _ => perm.symm⟩
      -- A group that is kept has an endpoint.
      have ne : groups.values.flatten ≠ [] := by
        intro empty
        have vacant : vacantMap groups = true := by
          rw [vacantMap, List.isEmpty_iff]
          refine List.eq_nil_iff_forall_not_mem.mpr ?_
          rintro ⟨key, endpoints⟩ mem
          have entry := (mem_entries_iff groups key endpoints).mp mem
          have kept : proxy.groupEntry service region key = some endpoints := by
            rw [groupEntry, found]
            exact entry
          have blank := flatten_eq_nil_iff.mp empty endpoints
            ((mem_values_iff _ _).mpr ⟨key, entry⟩)
          exact rep.indexesAgree.group_nonempty service region key (blank ▸ kept)
        rw [noVacant service region groups found] at vacant
        simp at vacant
      simp [codeOf, ne]

end Answers

/-- After every history, the answers of the strategies are related as `Routed` says. -/
theorem routed_run (calls : List Call) (own : EveryStep register RemovesOwn [] calls)
    (service : String) (region group : UInt32) :
    Routed (calls.foldl register []) service region group fun strategy =>
      (calls.foldl execute empty).getServers region group service strategy [] := by
  obtain ⟨represents, noVacant⟩ :=
    represents_run represents_empty (fun _ _ _ found => by simp [empty, groupsEntry] at found) own
  have normal {strategy : UInt32} := @Represents.getServers_normal _ _ service region group
    represents noVacant strategy
  obtain ⟨endpoints, normal_eq, ofSelf, ofRegion⟩ :=
    @normal GroupStrategy.normal.code (by decide) (by decide)
  have sublist : (listed (calls.foldl register []) (inGroup service region group)).Sublist
      (listed (calls.foldl register []) (inRegion service region)) := by
    refine List.Sublist.map _ (monotone_filter_right _ fun registration selected => ?_)
    simp only [inGroup, inRegion, decide_eq_true_eq] at selected ⊢
    exact ⟨selected.1, selected.2.1⟩
  have normal_nil : endpoints = [] ↔
      listed (calls.foldl register []) (inRegion service region) = [] := by
    by_cases self : listed (calls.foldl register []) (inGroup service region group) = []
    · rw [← length_eq_zero_iff, (ofRegion self).length_eq, length_eq_zero_iff]
    · refine iff_of_false (by rwa [ofSelf self]) fun empty => self ?_
      rw [empty] at sublist
      exact sublist_nil.mp sublist
  constructor
  case success =>
    intro strategy
    by_cases inRegion : strategy = groupsOneRegion.code
    · rw [inRegion, represents.getServers_oneRegion]
      exact ne_nil_of_codeOf
    · by_cases inGroup : strategy = selfGroup.code
      · rw [inGroup, represents.getServers_selfGroup]
        exact ne_nil_of_codeOf
      · obtain ⟨endpoints, answer_eq, -⟩ := normal inRegion inGroup
        rw [answer_eq]
        exact ne_nil_of_codeOf
  all_goals simp only [represents.getServers_selfGroup, represents.getServers_oneRegion, normal_eq,
    codeOf_eq_notFound]
  case normal_self =>
    intro nonempty
    rw [ofSelf nonempty]
  case normal_region =>
    intro empty
    exact ⟨by simp only [codeOf, normal_nil], ofRegion empty⟩
  case self_sublist => exact sublist
  case normal_notFound => exact normal_nil

/-- Two groups of a region, from which one server is removed again. -/
def regionCalls : List Call :=
  [.addServer "echo" ⟨1, 1, "10.0.0.1:80"⟩, .addServer "echo" ⟨1, 2, "10.0.0.2:80"⟩,
    .removeServer "echo" ⟨1, 1, "10.0.0.1:80"⟩]

theorem routed_run_regionCalls : Routed (regionCalls.foldl register []) "echo" 1 1 fun strategy =>
      (regionCalls.foldl execute empty).getServers 1 1 "echo" strategy [] :=
  routed_run regionCalls (by decide) "echo" 1 1

end NameServiceProxy
end McBrpc
