import McBrpc.Library.Execution
import McBrpc.NameAgent.NameServiceProxy

/-!
# Agreement of the service indexes

The table is related to the list of the servers it holds, with pairwise distinct endpoints.
`removeServer` filters it, provided that the endpoint is unknown or held with the very metadata of
the call; any other removal takes the indexes out of step.
-/

namespace McBrpc

open List KeyedMap
namespace NameServiceProxy

open Execution

/-- A server with the metadata under which it is entered. -/
structure Registration where
  service : String
  info : InstanceInfo
  deriving DecidableEq, Repr

def inService (service : String) (registration : Registration) : Bool :=
  service = registration.service

def inRegion (service : String) (region : UInt32) (registration : Registration) : Bool :=
  service = registration.service ∧ region = registration.info.regionId

/-- The registrations of a service, region and group. -/
def inGroup (service : String) (region group : UInt32) (registration : Registration) : Bool :=
  service = registration.service ∧ region = registration.info.regionId ∧
    group = registration.info.groupId

def listed (registrations : List Registration) (selects : Registration → Bool) : List String :=
  (registrations.filter selects).map fun registration => registration.info.endpoint

variable {registrations : List Registration} {proxy : NameServiceProxy}

theorem mem_listed {selects : Registration → Bool} {endpoint : String} :
    endpoint ∈ listed registrations selects ↔
      ∃ reg ∈ registrations,
        selects reg = true ∧ reg.info.endpoint = endpoint := by
  simp [listed, and_assoc]

theorem stored_listed_append (registrations : List Registration) (added : Registration)
    (selects : Registration → Bool) :
    stored (listed (registrations ++ [added]) selects) =
      if selects added then appended (stored (listed registrations selects)) added.info.endpoint
      else stored (listed registrations selects) := by
  have split : listed (registrations ++ [added]) selects =
      listed registrations selects ++ if selects added then [added.info.endpoint] else [] := by
    cases chosen : selects added <;> simp [listed, chosen]
  rw [split]
  cases chosen : selects added
  · simp
  · rw [appended, getD_stored]
    simp [stored]

/-- Where `removed` alone has its endpoint, dropping it filters every list that selects it. -/
theorem stored_listed_remove {removed : Registration} (only : ∀ reg ∈ registrations,
      reg.info.endpoint = removed.info.endpoint → reg = removed)
    (selects : Registration → Bool) :
    stored (listed (registrations.filter (· ≠ removed)) selects) =
      if selects removed then
        without (stored (listed registrations selects)) removed.info.endpoint
      else stored (listed registrations selects) := by
  cases chosen : selects removed with
  | false =>
    have unaffected : (registrations.filter (· ≠ removed)).filter selects =
        registrations.filter selects := by
      rw [filter_filter]
      apply filter_congr
      intro reg _
      by_cases same : reg = removed <;> simp [same, chosen]
    rw [listed, unaffected]
    rfl
  | true =>
    have filtered : listed (registrations.filter (· ≠ removed)) selects =
        (listed registrations selects).filter (· ≠ removed.info.endpoint) := by
      rw [listed, listed, filter_map, filter_filter, filter_filter]
      congr 1
      apply filter_congr
      intro reg mem
      by_cases same : reg = removed
      · simp [same]
      · have ne : reg.info.endpoint ≠ removed.info.endpoint :=
          fun equality => same (only reg mem equality)
        simp [same, ne]
    rw [filtered]
    cases listed registrations selects <;> simp [without, stored]

/-- The table holds exactly the given registrations. -/
structure Represents (registrations : List Registration) (proxy : NameServiceProxy) : Prop where
  distinct : (registrations.map fun registration => registration.info.endpoint).Nodup
  endPoints : ∀ endpoint, endpoint ∈ proxy.endPoints ↔
    ∃ registration ∈ registrations, registration.info.endpoint = endpoint
  instances : ∀ service,
    proxy.instanceEntry service = stored (listed registrations (inService service))
  byRegion : ∀ service region,
    proxy.regionEntry service region = stored (listed registrations (inRegion service region))
  byGroup : ∀ service region group,
    proxy.groupEntry service region group =
      stored (listed registrations (inGroup service region group))

theorem represents_empty : Represents [] empty where
  distinct := nodup_nil
  endPoints := by simp [empty]
  instances _ := rfl
  byRegion _ _ := rfl
  byGroup _ _ _ := rfl

section

variable (rep : Represents registrations proxy)
include rep

theorem Represents.eq_of_endpoint_eq {left right : Registration} (left_mem : left ∈ registrations)
    (right_mem : right ∈ registrations) (same : left.info.endpoint = right.info.endpoint) :
    left = right :=
  inj_on_of_nodup_map rep.distinct left_mem right_mem same

theorem Represents.addServer {name : String}
    {info : InstanceInfo} (unknown : info.endpoint ∉ proxy.endPoints) :
    Represents (registrations ++ [⟨name, info⟩]) (proxy.addServer name info) where
  distinct := by
    have absent : ∀ reg ∈ registrations, reg.info.endpoint ≠ info.endpoint := by
      intro reg mem same
      exact unknown ((rep.endPoints _).mpr ⟨reg, mem, same⟩)
    rw [map_append, nodup_append]
    refine ⟨rep.distinct, by simp, ?_⟩
    simpa using absent
  endPoints endpoint := by
    rw [endPoints_addServer, Finset.mem_insert, rep.endPoints]
    simp only [mem_append, mem_singleton]
    constructor
    · rintro (rfl | ⟨reg, mem, same⟩)
      · exact ⟨_, .inr rfl, rfl⟩
      · exact ⟨reg, .inl mem, same⟩
    · rintro ⟨reg, mem | rfl, same⟩
      · exact .inr ⟨reg, mem, same⟩
      · exact .inl same.symm
  instances service := by
    rw [instanceEntry_addServer unknown, stored_listed_append, rep.instances, rep.instances]
    by_cases same : service = name
    · simp [inService, same]
    · simp [inService, same]
  byRegion service region := by
    rw [regionEntry_addServer unknown, stored_listed_append, rep.byRegion, rep.byRegion]
    by_cases chosen : service = name ∧ region = info.regionId
    · obtain ⟨rfl, rfl⟩ := chosen
      simp [inRegion]
    · simp [inRegion, chosen]
  byGroup service region group := by
    rw [groupEntry_addServer unknown, stored_listed_append, rep.byGroup, rep.byGroup]
    by_cases chosen : service = name ∧ region = info.regionId ∧ group = info.groupId
    · obtain ⟨rfl, rfl, rfl⟩ := chosen
      simp [inGroup]
    · simp [inGroup, chosen]

/-- A server held with the metadata of the call is dropped; an unknown one changes nothing. -/
theorem Represents.removeServer {name : String} {info : InstanceInfo}
    (held : info.endpoint ∈ proxy.endPoints → ⟨name, info⟩ ∈ registrations) :
    Represents (registrations.filter (· ≠ ⟨name, info⟩))
      (proxy.removeServer name info) := by
  have only : ∀ reg ∈ registrations,
      reg.info.endpoint = info.endpoint → reg = ⟨name, info⟩ := by
    intro reg mem same
    have known := (rep.endPoints _).mpr ⟨reg, mem, same⟩
    exact rep.eq_of_endpoint_eq mem (held known) same
  constructor
  · exact rep.distinct.sublist (filter_sublist.map _)
  · intro endpoint
    simp only [NameServiceProxy.removeServer, Finset.mem_erase, rep.endPoints,
      mem_filter, decide_eq_true_eq]
    constructor
    · rintro ⟨ne, reg, mem, same⟩
      refine ⟨reg, ⟨mem, ?_⟩, same⟩
      rintro rfl
      exact ne same.symm
    · rintro ⟨reg, ⟨mem, ne⟩, same⟩
      refine ⟨?_, reg, mem, same⟩
      rintro rfl
      exact ne (only reg mem same)
  · intro service
    rw [instanceEntry_removeServer, stored_listed_remove only, rep.instances, rep.instances]
    by_cases same : service = name
    · simp [inService, same]
    · simp [inService, same]
  · intro service region
    rw [regionEntry_removeServer, stored_listed_remove only, rep.byRegion, rep.byRegion]
    by_cases chosen : service = name ∧ region = info.regionId
    · obtain ⟨rfl, rfl⟩ := chosen
      simp [inRegion]
    · simp [inRegion, chosen]
  · intro service region group
    rw [groupEntry_removeServer, stored_listed_remove only, rep.byGroup, rep.byGroup]
    by_cases chosen : service = name ∧ region = info.regionId ∧ group = info.groupId
    · obtain ⟨rfl, rfl, rfl⟩ := chosen
      simp [inGroup]
    · simp [inGroup, chosen]

end

variable (proxy : NameServiceProxy)

def instanceList (service : String) : List String :=
  (proxy.instanceEntry service).getD []

def regionLists (service : String) : List (List String) :=
  ((proxy.instancesByRegion.find? service).getD ∅).values

def regionList (service : String) (region : UInt32) : List String :=
  (proxy.regionEntry service region).getD []

/-- The lists of all groups of a service and region. -/
def groupLists (service : String) (region : UInt32) : List (List String) :=
  ((proxy.groupsEntry service region).getD ∅).values

def groupList (service : String) (region group : UInt32) : List String :=
  (proxy.groupEntry service region group).getD []

def Occurs (endpoint : String) : Prop :=
  ∃ service, endpoint ∈ proxy.instanceList service ∨
    ∃ region, endpoint ∈ proxy.regionList service region ∨
      ∃ group, endpoint ∈ proxy.groupList service region group

/-- The four containers describe one set of servers. -/
structure IndexesAgree (proxy : NameServiceProxy) : Prop where
  instances_perm : ∀ service,
    (proxy.instanceList service).Perm (proxy.regionLists service).flatten
  region_perm : ∀ service region,
    (proxy.regionList service region).Perm (proxy.groupLists service region).flatten
  instances_nonempty : ∀ service, proxy.instanceEntry service ≠ some []
  region_nonempty : ∀ service region, proxy.regionEntry service region ≠ some []
  group_nonempty : ∀ service region group, proxy.groupEntry service region group ≠ some []
  once : proxy.instances.values.flatten.Nodup
  endPoints : ∀ endpoint, endpoint ∈ proxy.endPoints ↔ proxy.Occurs endpoint

theorem stored_ne_some_nil (eps : List String) : stored eps ≠ some [] := by
  cases eps <;> simp [stored]

theorem eq_of_stored_eq_some {endpoints list : List String}
    (found : stored endpoints = some list) : list = endpoints := by
  cases endpoints <;> simp_all [stored]

section Represented

variable {registrations : List Registration} {proxy : NameServiceProxy}

theorem Represents.nodup_listed (rep : Represents registrations proxy)
    (selects : Registration → Bool) : (listed registrations selects).Nodup :=
  rep.distinct.sublist (filter_sublist.map _)

theorem Represents.disjoint_listed (rep : Represents registrations proxy)
    {left right : Registration → Bool}
    (apart : ∀ reg, left reg = true → right reg = true → False) :
    (listed registrations left).Disjoint (listed registrations right) := by
  intro endpoint leftListed rightListed
  obtain ⟨first, first_mem, chosen, same⟩ := mem_listed.mp leftListed
  obtain ⟨second, second_mem, selected', same'⟩ := mem_listed.mp rightListed
  obtain rfl := rep.eq_of_endpoint_eq first_mem second_mem (same.trans same'.symm)
  exact apart first chosen selected'

variable {service endpoint : String} (rep : Represents registrations proxy)
include rep

theorem Represents.mem_instanceList : endpoint ∈ proxy.instanceList service ↔ ∃ reg ∈ registrations,
        service = reg.service ∧ reg.info.endpoint = endpoint := by
  rw [instanceList, rep.instances, getD_stored, mem_listed]
  simp [inService]

theorem Represents.mem_regionList {region : UInt32} : endpoint ∈ proxy.regionList service region ↔
      ∃ reg ∈ registrations,
        (service = reg.service ∧ region = reg.info.regionId) ∧
          reg.info.endpoint = endpoint := by
  rw [regionList, rep.byRegion, getD_stored, mem_listed]
  simp [inRegion]

theorem Represents.mem_groupList {region group : UInt32} :
    endpoint ∈ proxy.groupList service region group ↔
      (⟨service, ⟨region, group, endpoint⟩⟩ : Registration) ∈ registrations := by
  rw [groupList, rep.byGroup, getD_stored, mem_listed]
  constructor
  · rintro ⟨⟨service', ⟨region', group', endpoint'⟩⟩, mem, chosen, rfl⟩
    obtain ⟨rfl, rfl, rfl⟩ : service = service' ∧ region = region' ∧ group = group' := by
      simpa [inGroup] using chosen
    exact mem
  · intro mem
    exact ⟨_, mem, by simp [inGroup], rfl⟩

/-- The lists of a map whose entries are selections concatenate to the union of the selections. -/
theorem Represents.perm_values {map : KeyedMap UInt32 (List String)} {whole : Registration → Bool}
    (selects : UInt32 → Registration → Bool)
    (entry : ∀ key, map.find? key = stored (listed registrations (selects key)))
    (covers : ∀ reg, whole reg = true ↔ ∃ key, selects key reg = true)
    (apart : ∀ left right reg, selects left reg = true → selects right reg = true → left = right) :
    (listed registrations whole).Perm map.values.flatten := by
  have flat_nodup : map.values.flatten.Nodup := by
    apply nodup_flatten_values
    · intro key list found
      rw [eq_of_stored_eq_some ((entry key).symm.trans found)]
      exact rep.nodup_listed _
    · intro left right list list' found found' ne
      rw [eq_of_stored_eq_some ((entry left).symm.trans found),
        eq_of_stored_eq_some ((entry right).symm.trans found')]
      refine rep.disjoint_listed ?_
      intro reg chosen selected'
      exact ne (apart left right reg chosen selected')
  rw [perm_ext_iff_of_nodup (rep.nodup_listed _) flat_nodup]
  intro endpoint
  simp only [mem_listed, covers, mem_flatten, mem_values_iff]
  constructor
  · rintro ⟨reg, mem, ⟨key, chosen⟩, same⟩
    have inList := mem_listed.mpr ⟨reg, mem, chosen, same⟩
    refine ⟨_, ⟨key, ?_⟩, inList⟩
    rw [entry, stored, if_neg]
    simpa using ne_nil_of_mem inList
  · rintro ⟨list, ⟨key, found⟩, inList⟩
    rw [eq_of_stored_eq_some ((entry key).symm.trans found)] at inList
    obtain ⟨reg, mem, chosen, same⟩ := mem_listed.mp inList
    exact ⟨reg, mem, ⟨key, chosen⟩, same⟩

theorem Represents.indexesAgree : IndexesAgree proxy where
  instances_perm service := by
    rw [instanceList, rep.instances, getD_stored]
    refine rep.perm_values (inRegion service) ?_ ?_ ?_
    · intro region
      rw [← rep.byRegion, regionEntry]
      cases proxy.instancesByRegion.find? service <;> simp
    · simp [inService, inRegion]
    · simp only [inRegion, decide_eq_true_eq]
      rintro left right reg ⟨-, rfl⟩ ⟨-, rfl⟩
      rfl
  region_perm service region := by
    rw [regionList, rep.byRegion, getD_stored]
    refine rep.perm_values (inGroup service region) ?_ ?_ ?_
    · intro group
      rw [← rep.byGroup, groupEntry]
      cases proxy.groupsEntry service region <;> simp
    · simp [inRegion, inGroup]
    · simp only [inGroup, decide_eq_true_eq]
      rintro left right reg ⟨-, -, rfl⟩ ⟨-, -, rfl⟩
      rfl
  instances_nonempty service := by
    rw [rep.instances]
    exact stored_ne_some_nil _
  region_nonempty service region := by
    rw [rep.byRegion]
    exact stored_ne_some_nil _
  group_nonempty service region group := by
    rw [rep.byGroup]
    exact stored_ne_some_nil _
  once := by
    apply nodup_flatten_values
    · intro service list found
      rw [eq_of_stored_eq_some ((rep.instances service).symm.trans found)]
      exact rep.nodup_listed _
    · intro left right list list' found found' ne
      rw [eq_of_stored_eq_some ((rep.instances left).symm.trans found),
        eq_of_stored_eq_some ((rep.instances right).symm.trans found')]
      refine rep.disjoint_listed ?_
      intro reg chosen selected'
      have leftService : left = reg.service := by simpa [inService] using chosen
      have rightService : right = reg.service := by simpa [inService] using selected'
      exact ne (leftService.trans rightService.symm)
  endPoints endpoint := by
    rw [rep.endPoints]
    constructor
    · rintro ⟨reg, mem, same⟩
      exact ⟨reg.service, .inl (rep.mem_instanceList.mpr ⟨reg, mem, rfl, same⟩)⟩
    · rintro ⟨service, inInstances | ⟨region, inRegion | ⟨group, inGroup⟩⟩⟩
      · obtain ⟨reg, mem, -, same⟩ :=
          rep.mem_instanceList.mp inInstances
        exact ⟨reg, mem, same⟩
      · obtain ⟨reg, mem, -, same⟩ := rep.mem_regionList.mp inRegion
        exact ⟨reg, mem, same⟩
      · exact ⟨_, rep.mem_groupList.mp inGroup, rfl⟩

end Represented

inductive Call
  | addServer (serviceName : String) (info : InstanceInfo)
  | removeServer (serviceName : String) (info : InstanceInfo)

def execute (proxy : NameServiceProxy) : Call → NameServiceProxy
  | .addServer serviceName info => proxy.addServer serviceName info
  | .removeServer serviceName info => proxy.removeServer serviceName info

/-- A removal names the service, region and group under which a known endpoint is held. -/
def NamesHeldServer (proxy : NameServiceProxy) : Call → Prop
  | .addServer _ _ => True
  | .removeServer serviceName info =>
    info.endpoint ∈ proxy.endPoints →
      info.endpoint ∈ proxy.groupList serviceName info.regionId info.groupId

theorem represents_execute {proxy : NameServiceProxy} (call : Call)
    (represented : ∃ registrations, Represents registrations proxy)
    (held : proxy.NamesHeldServer call) :
    ∃ registrations, Represents registrations (proxy.execute call) := by
  obtain ⟨registrations, rep⟩ := represented
  cases call with
  | addServer name info =>
    by_cases known : info.endpoint ∈ proxy.endPoints
    · exact ⟨registrations, by simpa [execute, addServer_of_known known] using rep⟩
    · exact ⟨_, rep.addServer known⟩
  | removeServer name info =>
    exact ⟨_, rep.removeServer fun known => rep.mem_groupList.mp (held known)⟩

theorem not_indexesAgree_of_foreign {registrations : List Registration} {proxy : NameServiceProxy}
    (rep : Represents registrations proxy) {name : String} {info : InstanceInfo}
    {holder : Registration} (holder_mem : holder ∈ registrations)
    (same : holder.info.endpoint = info.endpoint) (foreign : holder ≠ ⟨name, info⟩) :
    ¬ IndexesAgree (proxy.removeServer name info) := by
  intro agree
  have forgotten : info.endpoint ∉ (proxy.removeServer name info).endPoints := by
    simp [removeServer]
  refine forgotten ((agree.endPoints _).mpr ⟨holder.service, ?_⟩)
  by_cases sameService : holder.service = name
  · refine .inr ⟨holder.info.regionId, ?_⟩
    by_cases sameRegion : holder.info.regionId = info.regionId
    · refine .inr ⟨holder.info.groupId, ?_⟩
      have otherGroup : holder.info.groupId ≠ info.groupId := by
        intro sameGroup
        apply foreign
        obtain ⟨service, ⟨region, group, endpoint⟩⟩ := holder
        simp_all
      rw [groupList, groupEntry_removeServer, if_neg (by simp [otherGroup]), ← groupList,
        rep.mem_groupList]
      rwa [← same]
    · left
      rw [regionList, regionEntry_removeServer, if_neg (by simp [sameRegion]), ← regionList,
        rep.mem_regionList]
      exact ⟨holder, holder_mem, ⟨rfl, rfl⟩, same⟩
  · left
    rw [instanceList, instanceEntry_removeServer, if_neg sameService, ← instanceList,
      rep.mem_instanceList]
    exact ⟨holder, holder_mem, rfl, same⟩

/-- The indexes agree in every state of a run exactly when every removal of a known endpoint
names the service, region and group under which the endpoint is held. -/
theorem everyState_indexesAgree_iff (calls : List Call) :
    EveryState execute IndexesAgree empty calls ↔
      EveryStep execute NamesHeldServer empty calls := by
  apply everyState_iff_everyStep fun proxy => ∃ registrations, Represents registrations proxy
  · exact ⟨[], represents_empty⟩
  · rintro proxy ⟨registrations, represents⟩
    exact represents.indexesAgree
  · intro proxy call represented held
    exact represents_execute call represented held
  · rintro proxy call - ⟨registrations, represents⟩ agree
    cases call with
    | addServer => trivial
    | removeServer serviceName info =>
      intro known
      obtain ⟨holder, holder_mem, same⟩ := (represents.endPoints _).mp known
      rw [represents.mem_groupList]
      by_contra absent
      refine not_indexesAgree_of_foreign represents holder_mem same ?_ agree
      rintro rfl
      exact absent holder_mem

/-- Removing a known endpoint under another service name leaves it listed but forgotten. -/
theorem not_everyState_indexesAgree : ¬ ∀ calls, EveryState execute IndexesAgree empty calls := by
  intro always
  have final := (always [.addServer "echo" ⟨1, 1, "10.0.0.1:80"⟩,
    .removeServer "relay" ⟨1, 1, "10.0.0.1:80"⟩]).final
  have listed : "10.0.0.1:80" ∈ instanceList
      ((empty.addServer "echo" ⟨1, 1, "10.0.0.1:80"⟩).removeServer "relay" ⟨1, 1, "10.0.0.1:80"⟩)
      "echo" := by
    decide
  have forgotten := (final.endPoints "10.0.0.1:80").mpr ⟨"echo", .inl listed⟩
  revert forgotten
  decide

end NameServiceProxy
end McBrpc
