import McBrpc.Library.KeyedMap
import Mathlib.Data.Finset.Basic

/-!
# The service table of the name agent

`NameServiceProxy` keeps the endpoints of registered instances in three indexes and the set of all
endpoints it holds.  The doubly buffered maps of the source are read through one buffer and modified
in both, so each is a plain map here.
-/

namespace McBrpc

open KeyedMap

/-- The registration message that an instance stores in the registry. -/
structure InstanceInfo where
  regionId : UInt32
  groupId : UInt32
  endpoint : String
  deriving DecidableEq, Repr

inductive ResCode
  | begin
  | success
  | inValidParams
  | notFound
  | serverError
  deriving DecidableEq, Repr

inductive GroupStrategy
  | normal
  | groupsOneRegion
  | selfGroup
  deriving DecidableEq, Repr

def GroupStrategy.code : GroupStrategy → UInt32
  | normal => 0
  | groupsOneRegion => 1
  | selfGroup => 2

abbrev ServiceMap := KeyedMap String (List String)

abbrev ServiceRegionMap := KeyedMap String (KeyedMap UInt32 (List String))

abbrev ServiceRegionAndGroupMap :=
  KeyedMap String (KeyedMap UInt32 (KeyedMap UInt32 (List String)))

/-- The table of the name agent: the known endpoints and their three indexes. -/
structure NameServiceProxy where
  endPoints : Finset String
  instances : ServiceMap
  instancesByRegion : ServiceRegionMap
  instancesByRegionAndGroup : ServiceRegionAndGroupMap

namespace NameServiceProxy

def empty : NameServiceProxy where
  endPoints := ∅
  instances := ∅
  instancesByRegion := ∅
  instancesByRegionAndGroup := ∅

def emplaceInstance (map : ServiceMap) (serviceName : String) (info : InstanceInfo) : ServiceMap :=
  map.modify serviceName [] (· ++ [info.endpoint])

/-- Append an endpoint to the list of a service and region. -/
def emplaceByRegion (map : ServiceRegionMap) (serviceName : String) (info : InstanceInfo) :
    ServiceRegionMap :=
  map.modify serviceName ∅ fun regions =>
    regions.modify info.regionId [] (· ++ [info.endpoint])

/-- Append an endpoint to the list of a service, region and group. -/
def emplaceByRegionAndGroup (map : ServiceRegionAndGroupMap) (serviceName : String)
    (info : InstanceInfo) : ServiceRegionAndGroupMap :=
  map.modify serviceName ∅ fun regions =>
    regions.modify info.regionId ∅ fun groups =>
      groups.modify info.groupId [] (· ++ [info.endpoint])

variable (proxy : NameServiceProxy)

/-- Enter an instance in all indexes unless its endpoint is already known. -/
def addServer (serviceName : String) (info : InstanceInfo) : NameServiceProxy :=
  if info.endpoint ∈ proxy.endPoints then
    proxy
  else
    { endPoints := insert info.endpoint proxy.endPoints
      instances := emplaceInstance proxy.instances serviceName info
      instancesByRegion := emplaceByRegion proxy.instancesByRegion serviceName info
      instancesByRegionAndGroup :=
        emplaceByRegionAndGroup proxy.instancesByRegionAndGroup serviceName info }

def vacantMap {α β : Type*} (map : KeyedMap α β) : Bool := map.entries.isEmpty

def removeInstance (map : ServiceMap) (serviceName : String) (info : InstanceInfo) : ServiceMap :=
  match map.find? serviceName with
  | none => map
  | some endpoints =>
    map.settle serviceName List.isEmpty (endpoints.filter (· ≠ info.endpoint))

/-- Remove an endpoint from the list of a service and region. -/
def removeByRegion (map : ServiceRegionMap) (serviceName : String) (info : InstanceInfo) :
    ServiceRegionMap :=
  match map.find? serviceName with
  | none => map
  | some regions =>
    match regions.find? info.regionId with
    | none => map
    | some endpoints =>
      map.settle serviceName vacantMap <|
        regions.settle info.regionId List.isEmpty (endpoints.filter (· ≠ info.endpoint))

/-- Remove an endpoint from the list of a service, region and group. -/
def removeByRegionAndGroup (map : ServiceRegionAndGroupMap) (serviceName : String)
    (info : InstanceInfo) : ServiceRegionAndGroupMap :=
  match map.find? serviceName with
  | none => map
  | some regions =>
    match regions.find? info.regionId with
    | none => map
    | some groups =>
      match groups.find? info.groupId with
      | none => map
      | some endpoints =>
        map.settle serviceName vacantMap <|
          regions.settle info.regionId vacantMap <|
            groups.settle info.groupId List.isEmpty
              (endpoints.filter (· ≠ info.endpoint))

/-- Remove an instance from the lists selected by its metadata and forget its endpoint. -/
def removeServer (serviceName : String) (info : InstanceInfo) : NameServiceProxy where
  instances := removeInstance proxy.instances serviceName info
  instancesByRegion := removeByRegion proxy.instancesByRegion serviceName info
  instancesByRegionAndGroup :=
    removeByRegionAndGroup proxy.instancesByRegionAndGroup serviceName info
  endPoints := proxy.endPoints.erase info.endpoint

def instanceEntry (serviceName : String) : Option (List String) :=
  proxy.instances.find? serviceName

def regionEntry (serviceName : String) (regionId : UInt32) : Option (List String) :=
  (proxy.instancesByRegion.find? serviceName).bind fun regions => regions.find? regionId

def groupsEntry (serviceName : String) (regionId : UInt32) :
    Option (KeyedMap UInt32 (List String)) :=
  (proxy.instancesByRegionAndGroup.find? serviceName).bind fun regions =>
    regions.find? regionId

def groupEntry (serviceName : String) (regionId groupId : UInt32) : Option (List String) :=
  (proxy.groupsEntry serviceName regionId).bind fun groups => groups.find? groupId

/-- A stored list after an endpoint is appended to it. -/
def appended (entry : Option (List String)) (endpoint : String) : Option (List String) :=
  some (entry.getD [] ++ [endpoint])

/-- A list as it is stored: not at all when it is empty. -/
def stored (endpoints : List String) : Option (List String) :=
  if endpoints.isEmpty then none else some endpoints

/-- A stored list after an endpoint is removed from it. -/
def without (entry : Option (List String)) (endpoint : String) : Option (List String) :=
  entry.bind fun endpoints => stored (endpoints.filter (· ≠ endpoint))

@[simp]
theorem getD_stored (endpoints : List String) : (stored endpoints).getD [] = endpoints := by
  cases endpoints <;> rfl

theorem addServer_of_known {proxy : NameServiceProxy} {name : String} {info : InstanceInfo}
    (known : info.endpoint ∈ proxy.endPoints) : proxy.addServer name info = proxy := by
  simp [addServer, known]

section NewEndpoint

variable {proxy : NameServiceProxy} {name : String} {info : InstanceInfo}

theorem endPoints_addServer (proxy : NameServiceProxy) (name : String)
    (info : InstanceInfo) :
    (proxy.addServer name info).endPoints = insert info.endpoint proxy.endPoints := by
  by_cases known : info.endpoint ∈ proxy.endPoints
  · rw [addServer_of_known known, Finset.insert_eq_of_mem known]
  · simp [addServer, known]

variable (unknown : info.endpoint ∉ proxy.endPoints)
include unknown

variable (service : String)

theorem instanceEntry_addServer : (proxy.addServer name info).instanceEntry service =
      if service = name then appended (proxy.instanceEntry name) info.endpoint
      else proxy.instanceEntry service := by
  simp [addServer, unknown, instanceEntry, emplaceInstance, find?_modify, appended]

theorem regionEntry_addServer (region : UInt32) :
    (proxy.addServer name info).regionEntry service region =
      if service = name ∧ region = info.regionId then
        appended (proxy.regionEntry name info.regionId) info.endpoint
      else proxy.regionEntry service region := by
  simp only [addServer, unknown, if_false, regionEntry, emplaceByRegion, find?_modify, appended]
  by_cases sameService : service = name
  · subst sameService
    cases found : proxy.instancesByRegion.find? service <;>
      by_cases sameRegion : region = info.regionId <;>
      simp [sameRegion, find?_modify]
  · simp [sameService]

theorem groupEntry_addServer (region group : UInt32) :
    (proxy.addServer name info).groupEntry service region group =
      if service = name ∧ region = info.regionId ∧ group = info.groupId then
        appended (proxy.groupEntry name info.regionId info.groupId) info.endpoint
      else proxy.groupEntry service region group := by
  simp only [addServer, unknown, if_false, groupEntry, groupsEntry, emplaceByRegionAndGroup,
    find?_modify, appended]
  by_cases sameService : service = name
  · subst sameService
    cases found : proxy.instancesByRegionAndGroup.find? service with
    | none =>
      by_cases sameRegion : region = info.regionId <;>
        by_cases sameGroup : group = info.groupId <;>
        simp [sameRegion, sameGroup, find?_modify]
    | some regions =>
      by_cases sameRegion : region = info.regionId
      · subst sameRegion
        cases foundRegion : regions.find? info.regionId <;>
          by_cases sameGroup : group = info.groupId <;>
          simp [foundRegion, sameGroup, find?_modify]
      · simp [sameRegion, find?_modify]
  · simp [sameService]

end NewEndpoint

theorem find?_of_vacantMap {α β : Type*} [DecidableEq α] {map : KeyedMap α β}
    (vacant : vacantMap map = true) (key : α) : map.find? key = none :=
  find?_of_entries_nil (List.isEmpty_iff.mp vacant) key

theorem bind_find?_settle {α β γ δ : Type*} [DecidableEq α] [DecidableEq β]
    (map : KeyedMap α (KeyedMap β γ)) (key other : α) {inner : KeyedMap β γ}
    {next : KeyedMap β γ → Option δ} (vacant : vacantMap inner → next inner = none) :
    ((map.settle key vacantMap inner).find? other).bind next =
      if other = key then next inner else (map.find? other).bind next := by
  rw [find?_settle]
  split
  · split
    · next isVacant => exact (vacant isVacant).symm
    · rfl
  · rfl

section Removal

variable (name : String) (info : InstanceInfo) (service : String)

theorem instanceEntry_removeServer : (proxy.removeServer name info).instanceEntry service =
      if service = name then without (proxy.instanceEntry name) info.endpoint
      else proxy.instanceEntry service := by
  simp only [removeServer, removeInstance, instanceEntry, without]
  cases found : proxy.instances.find? name with
  | none =>
    by_cases same : service = name
    · simp [same, found]
    · simp [same]
  | some eps => simp [find?_settle, stored]

theorem regionEntry_removeServer (region : UInt32) :
    (proxy.removeServer name info).regionEntry service region =
      if service = name ∧ region = info.regionId then
        without (proxy.regionEntry name info.regionId) info.endpoint
      else proxy.regionEntry service region := by
  simp only [removeServer, removeByRegion, regionEntry, without]
  cases found : proxy.instancesByRegion.find? name with
  | none => split <;> simp_all
  | some regions =>
    cases foundRegion : regions.find? info.regionId with
    | none => split <;> simp_all
    | some eps =>
      simp only [foundRegion]
      rw [bind_find?_settle _ _ _ fun vacant => by rw [find?_of_vacantMap vacant], find?_settle]
      by_cases same : service = name <;> by_cases sameRegion : region = info.regionId <;>
        simp [same, sameRegion, found, foundRegion, stored]

theorem groupEntry_removeServer (region group : UInt32) :
    (proxy.removeServer name info).groupEntry service region group =
      if service = name ∧ region = info.regionId ∧ group = info.groupId then
        without (proxy.groupEntry name info.regionId info.groupId) info.endpoint
      else proxy.groupEntry service region group := by
  simp only [removeServer, removeByRegionAndGroup, groupEntry, groupsEntry, without,
    Option.bind_assoc]
  cases found : proxy.instancesByRegionAndGroup.find? name with
  | none => split <;> simp_all
  | some regions =>
    cases foundRegion : regions.find? info.regionId with
    | none => split <;> simp_all
    | some groups =>
      cases foundGroup : groups.find? info.groupId with
      | none => split <;> simp_all
      | some eps =>
        simp only [foundRegion, foundGroup]
        rw [bind_find?_settle _ _ _ fun vacant => by rw [find?_of_vacantMap vacant]; rfl,
          bind_find?_settle _ _ _ fun vacant => by rw [find?_of_vacantMap vacant],
          find?_settle]
        by_cases same : service = name <;> by_cases sameRegion : region = info.regionId <;>
          by_cases sameGroup : group = info.groupId <;>
          simp [same, sameRegion, sameGroup, found, foundRegion, foundGroup, stored]

end Removal

/-- Answer a client: the result code and the endpoint list after the call.

`regionId` and `groupId` are the agent's own ones from its configuration. -/
def getServers (proxy : NameServiceProxy) (regionId groupId : UInt32) (serviceName : String)
    (groupStrategy : UInt32) (endpoints : List String) : ResCode × List String :=
  if groupStrategy = GroupStrategy.groupsOneRegion.code then
    match proxy.regionEntry serviceName regionId with
    | some (first :: rest) => (.success, first :: rest)
    | some [] | none => (.notFound, endpoints)
  else if groupStrategy = GroupStrategy.selfGroup.code then
    match proxy.groupEntry serviceName regionId groupId with
    | some (first :: rest) => (.success, first :: rest)
    | some [] | none => (.notFound, endpoints)
  else
    match proxy.groupEntry serviceName regionId groupId with
    | some (first :: rest) => (.success, first :: rest)
    | some [] | none =>
      match proxy.groupsEntry serviceName regionId with
      | some groups => (.success, endpoints ++ groups.values.flatten)
      | none => (.notFound, endpoints)

end NameServiceProxy
end McBrpc
