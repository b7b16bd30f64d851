import McBrpc.NameAgent.IndexAgreement
import McBrpc.NameAgent.Watcher

/-!
# The table as a mirror of the registry

Each change of the registry emits the event that the watcher replays.  The table mirrors the
registry as long as no change meets a second live registration of the same endpoint or replaces a
message that no other key holds: `Undisturbed`.
-/

namespace McBrpc

/-- A registry key of the form `service:instance`. -/
abbrev RegistrationKey := {key : String // ':' ∈ key.toList}

theorem RegistrationKey.ne_dumpLock (key : RegistrationKey) : key.val ≠ nameAgentDumpLock := by
  intro isLock
  have colon := key.property
  rw [isLock] at colon
  revert colon
  decide

def RegistrationKey.service (key : RegistrationKey) : String := serviceNameOf key.val

abbrev Registry := KeyedMap RegistrationKey InstanceInfo

inductive RegistryChange
  | put (key : RegistrationKey) (info : InstanceInfo)
  | delete (key : RegistrationKey)

namespace Registry

def apply (registry : Registry) : RegistryChange → Registry
  | .put key info => registry.insert key info
  | .delete key => registry.erase key

/-- The events that a change emits; deleting a missing key emits none. -/
def eventsOf {Value : Type} (codec : InstanceCodec Value) (registry : Registry) :
    RegistryChange → List (Event Value)
  | .put key info => [.put key.val (codec.serializeAsString info)]
  | .delete key =>
    match registry.find? key with
    | none => []
    | some info => [.delete key.val (codec.serializeAsString info)]

/-- Some live key of the service holds the message. -/
def Live (registry : Registry) (service : String) (info : InstanceInfo) : Prop :=
  ∃ key : RegistrationKey, key.service = service ∧ registry.find? key = some info

/-- A change that neither meets a foreign live registration of its endpoint nor hides one. -/
def Undisturbed (registry : Registry) : RegistryChange → Prop
  | .put key info =>
    (∀ old, registry.find? key = some old → old = info ∨
        ∃ other : RegistrationKey, other ≠ key ∧ other.service = key.service ∧
          registry.find? other = some old) ∧
    ((∃ other stored, registry.find? other = some stored ∧ stored.endpoint = info.endpoint) →
      registry.Live key.service info)
  | .delete key =>
    ∀ info, registry.find? key = some info →
      ∀ other stored, other ≠ key → registry.find? other = some stored →
        stored.endpoint ≠ info.endpoint

variable {registry : Registry} {key : RegistrationKey}

theorem live_insert_iff {info : InstanceInfo}
    (kept : ∀ old, registry.find? key = some old → old = info ∨
      ∃ other : RegistrationKey, other ≠ key ∧ other.service = key.service ∧
        registry.find? other = some old) (service : String) (other : InstanceInfo) :
    Live (registry.insert key info) service other ↔
      (service = key.service ∧ other = info) ∨ registry.Live service other := by
  constructor
  · rintro ⟨holder, rfl, found⟩
    rw [KeyedMap.find?_insert] at found
    by_cases same : holder = key
    · subst same
      left
      simpa [eq_comm] using found
    · exact .inr ⟨holder, rfl, by simpa [same] using found⟩
  · rintro (⟨rfl, rfl⟩ | ⟨holder, rfl, found⟩)
    · exact ⟨key, rfl, by simp [KeyedMap.find?_insert]⟩
    · by_cases same : holder = key
      · subst same
        rcases kept other found with rfl | ⟨second, ne, sameService, foundSecond⟩
        · exact ⟨holder, rfl, by simp [KeyedMap.find?_insert]⟩
        · exact ⟨second, sameService, by simp [KeyedMap.find?_insert, ne, foundSecond]⟩
      · exact ⟨holder, rfl, by simp [KeyedMap.find?_insert, same, found]⟩

theorem live_erase_iff {info : InstanceInfo} (found : registry.find? key = some info)
    (alone : ∀ other stored, other ≠ key → registry.find? other = some stored →
      stored.endpoint ≠ info.endpoint) (service : String) (other : InstanceInfo) :
    Live (registry.erase key) service other ↔
      registry.Live service other ∧ ¬ (service = key.service ∧ other = info) := by
  constructor
  · rintro ⟨holder, rfl, foundHolder⟩
    rw [KeyedMap.find?_erase] at foundHolder
    by_cases same : holder = key
    · simp [same] at foundHolder
    · simp only [same, if_false] at foundHolder
      refine ⟨⟨holder, rfl, foundHolder⟩, ?_⟩
      rintro ⟨-, rfl⟩
      exact alone holder other same foundHolder rfl
  · rintro ⟨⟨holder, rfl, foundHolder⟩, ne⟩
    by_cases same : holder = key
    · subst same
      obtain rfl : info = other := by simpa [found] using foundHolder
      exact absurd ⟨rfl, rfl⟩ ne
    · exact ⟨holder, rfl, by simp [KeyedMap.find?_erase, same, foundHolder]⟩

theorem find?_erase_missing (missing : registry.find? key = none) (other : RegistrationKey) :
    KeyedMap.find? (registry.erase key) other = registry.find? other := by
  rw [KeyedMap.find?_erase]
  by_cases same : other = key
  · simp [same, missing]
  · simp [same]

theorem eventsOf_key_ne_dumpLock {Value : Type} (codec : InstanceCodec Value)
    (registry : Registry) (change : RegistryChange) :
    ∀ event ∈ registry.eventsOf codec change, event.key ≠ nameAgentDumpLock := by
  intro event mem
  cases change with
  | put key info =>
    obtain rfl : event = _ := by simpa [eventsOf] using mem
    exact key.ne_dumpLock
  | delete key =>
    cases found : registry.find? key with
    | none => simp [eventsOf, found] at mem
    | some info =>
      obtain rfl : event = _ := by simpa [eventsOf, found] using mem
      exact key.ne_dumpLock

end Registry

namespace NameServiceProxy

open Execution Registry GroupStrategy

/-- The table holds the live registrations and nothing else. -/
def Mirrors (registry : Registry) (proxy : NameServiceProxy) : Prop :=
  ∃ registrations, Represents registrations proxy ∧
    ∀ registration, registration ∈ registrations ↔
      registry.Live registration.service registration.info

theorem mirrors_empty : Mirrors ∅ empty := by
  refine ⟨[], represents_empty, ?_⟩
  simp [Live]

section Changes

variable {Value : Type} (codec : InstanceCodec Value)

variable (proxy : NameServiceProxy)

theorem watcherCallback_eventsOf_put (registry : Registry) (key : RegistrationKey)
    (info : InstanceInfo) :
    proxy.watcherCallback codec (registry.eventsOf codec (.put key info)) =
      proxy.addServer key.service info := by
  simp only [eventsOf, watcherCallback, Event.key, key.ne_dumpLock, if_false,
    handleEvent_put_serialize]
  rfl

theorem watcherCallback_eventsOf_delete {registry : Registry} {key : RegistrationKey}
    {info : InstanceInfo} (found : registry.find? key = some info) :
    proxy.watcherCallback codec (registry.eventsOf codec (.delete key)) =
      proxy.removeServer key.service info := by
  have events : registry.eventsOf codec (.delete key) =
      [.delete key.val (codec.serializeAsString info)] := by
    simp [eventsOf, found]
  simp only [events, watcherCallback, Event.key, key.ne_dumpLock, if_false,
    handleEvent_delete_serialize]
  rfl

theorem watcherCallback_eventsOf_delete_missing {registry : Registry} {key : RegistrationKey}
    (missing : registry.find? key = none) :
    proxy.watcherCallback codec (registry.eventsOf codec (.delete key)) = proxy := by
  simp [eventsOf, missing, watcherCallback]

end Changes

variable {registry : Registry} {proxy : NameServiceProxy} {key : RegistrationKey}
  {info : InstanceInfo}

theorem Mirrors.put (mirrors : Mirrors registry proxy)
    (undisturbed : registry.Undisturbed (.put key info)) :
    Mirrors (registry.insert key info) (proxy.addServer key.service info) := by
  obtain ⟨regs, rep, live⟩ := mirrors
  obtain ⟨kept, admitted⟩ := undisturbed
  by_cases known : info.endpoint ∈ proxy.endPoints
  · obtain ⟨holder, holder_mem, same⟩ := (rep.endPoints _).mp known
    obtain ⟨holderKey, -, foundHolder⟩ := (live holder).mp holder_mem
    have already := admitted ⟨holderKey, holder.info, foundHolder, same⟩
    rw [addServer_of_known known]
    refine ⟨regs, rep, ?_⟩
    rintro ⟨service, other⟩
    rw [live, live_insert_iff kept]
    constructor
    · exact .inr
    · rintro (⟨rfl, rfl⟩ | held)
      · exact already
      · exact held
  · refine ⟨_, rep.addServer known, ?_⟩
    rintro ⟨service, other⟩
    rw [List.mem_append, live, live_insert_iff kept]
    simp [or_comm]

theorem Mirrors.delete (mirrors : Mirrors registry proxy) (found : registry.find? key = some info)
    (undisturbed : registry.Undisturbed (.delete key)) :
    Mirrors (registry.erase key) (proxy.removeServer key.service info) := by
  obtain ⟨registrations, rep, live⟩ := mirrors
  have held : (⟨key.service, info⟩ : Registration) ∈ registrations :=
    (live _).mpr ⟨key, rfl, found⟩
  refine ⟨_, rep.removeServer fun _ => held, ?_⟩
  rintro ⟨service, other⟩
  rw [List.mem_filter, live, live_erase_iff found (undisturbed info found)]
  simp [imp_iff_not_or]

theorem Mirrors.change {Value : Type} (codec : InstanceCodec Value)
    (mirrors : Mirrors registry proxy) {change : RegistryChange}
    (undisturbed : registry.Undisturbed change) :
    Mirrors (registry.apply change)
      (proxy.watcherCallback codec (registry.eventsOf codec change)) := by
  cases change with
  | put key info =>
    rw [watcherCallback_eventsOf_put]
    exact mirrors.put undisturbed
  | delete key =>
    cases found : registry.find? key with
    | none =>
      rw [watcherCallback_eventsOf_delete_missing codec proxy found]
      obtain ⟨regs, rep, live⟩ := mirrors
      refine ⟨regs, rep, ?_⟩
      simpa [Live, Registry.apply, find?_erase_missing found] using live
    | some info =>
      rw [watcherCallback_eventsOf_delete codec proxy found]
      exact mirrors.delete found undisturbed

/-- Clients of every group are told the live endpoints of the service in their group. -/
def ReportsLive (registry : Registry) (proxy : NameServiceProxy) : Prop :=
  ∀ (service : String) (region group : UInt32) (endpoint : String),
    endpoint ∈ (proxy.getServers region group service selfGroup.code []).2 ↔
      registry.Live service ⟨region, group, endpoint⟩

theorem getServers_ownGroup (proxy : NameServiceProxy) (region group : UInt32) (service : String) :
    (proxy.getServers region group service selfGroup.code []).2 =
      proxy.groupList service region group := by
  have otherCode : selfGroup.code ≠ groupsOneRegion.code := by decide
  rw [getServers, if_neg otherCode, if_pos rfl, groupList]
  rcases proxy.groupEntry service region group with _ | _ | ⟨first, rest⟩ <;> rfl

theorem Represents.reportsLive_iff {regs : List Registration} (rep : Represents regs proxy) :
    ReportsLive registry proxy ↔
      ∀ reg, reg ∈ regs ↔
        registry.Live reg.service reg.info := by
  simp only [ReportsLive, getServers_ownGroup, rep.mem_groupList]
  constructor
  · intro reports reg
    exact reports reg.service reg.info.regionId reg.info.groupId
      reg.info.endpoint
  · intro live service region group endpoint
    exact live ⟨service, ⟨region, group, endpoint⟩⟩

/-- Correct reports after a put show that it was admissible. -/
theorem Mirrors.undisturbed_put (mirrors : Mirrors registry proxy)
    (reports : ReportsLive (registry.insert key info) (proxy.addServer key.service info)) :
    registry.Undisturbed (.put key info) := by
  obtain ⟨registrations, rep, live⟩ := mirrors
  have stays : ∀ old, Live (registry.insert key info) key.service old → old = info ∨
      ∃ other : RegistrationKey, other ≠ key ∧ other.service = key.service ∧
        registry.find? other = some old := by
    rintro old ⟨holder, sameService, found⟩
    rw [KeyedMap.find?_insert] at found
    by_cases same : holder = key
    · left
      simpa [same, eq_comm] using found
    · exact .inr ⟨holder, same, sameService, by simpa [same] using found⟩
  by_cases known : info.endpoint ∈ proxy.endPoints
  · rw [addServer_of_known known, rep.reportsLive_iff] at reports
    constructor
    · intro old found
      have held : (⟨key.service, old⟩ : Registration) ∈ registrations :=
        (live _).mpr ⟨key, rfl, found⟩
      exact stays old ((reports _).mp held)
    · intro _
      have nowLive : Live (registry.insert key info) key.service info :=
        ⟨key, rfl, by simp [KeyedMap.find?_insert]⟩
      exact (live ⟨key.service, info⟩).mp ((reports ⟨key.service, info⟩).mpr nowLive)
  · rw [(rep.addServer known).reportsLive_iff] at reports
    constructor
    · intro old found
      have held : (⟨key.service, old⟩ : Registration) ∈ registrations :=
        (live _).mpr ⟨key, rfl, found⟩
      exact stays old ((reports _).mp (List.mem_append_left _ held))
    · rintro ⟨other, stored, found, sameEndpoint⟩
      have held : (⟨other.service, stored⟩ : Registration) ∈ registrations :=
        (live _).mpr ⟨other, rfl, found⟩
      exact absurd ((rep.endPoints _).mpr ⟨_, held, sameEndpoint⟩) known

theorem Mirrors.undisturbed_delete (mirrors : Mirrors registry proxy)
    (found : registry.find? key = some info)
    (reports : ReportsLive (registry.erase key) (proxy.removeServer key.service info)) :
    registry.Undisturbed (.delete key) := by
  obtain ⟨registrations, rep, live⟩ := mirrors
  have held : (⟨key.service, info⟩ : Registration) ∈ registrations :=
    (live _).mpr ⟨key, rfl, found⟩
  rw [(rep.removeServer fun _ => held).reportsLive_iff] at reports
  intro info' found' other stored ne foundOther sameEndpoint
  obtain rfl : info = info' := by simpa [found] using found'
  have otherHeld : (⟨other.service, stored⟩ : Registration) ∈ registrations :=
    (live _).mpr ⟨other, rfl, foundOther⟩
  have same := rep.eq_of_endpoint_eq otherHeld held sameEndpoint
  have stillLive : Live (registry.erase key) other.service stored :=
    ⟨other, rfl, by simp [KeyedMap.find?_erase, ne, foundOther]⟩
  have remaining := (reports ⟨other.service, stored⟩).mpr stillLive
  rw [same] at remaining
  simp at remaining

/-- The registry together with the table of an agent that watches it. -/
structure Observed where
  registry : Registry
  proxy : NameServiceProxy

def Observed.initial : Observed := ⟨∅, empty⟩

/-- A change of the registry whose events the watcher has replayed. -/
def Observed.change {Value : Type} (codec : InstanceCodec Value) (observed : Observed)
    (change : RegistryChange) : Observed where
  registry := observed.registry.apply change
  proxy := observed.proxy.watcherCallback codec (observed.registry.eventsOf codec change)

/-- Clients are told the live registrations after every change exactly when every change is
undisturbed. -/
theorem everyState_reportsLive_iff {Value : Type} (codec : InstanceCodec Value)
    (changes : List RegistryChange) :
    EveryState (Observed.change codec)
        (fun observed => ReportsLive observed.registry observed.proxy) .initial changes ↔
      EveryStep (Observed.change codec)
        (fun observed change => observed.registry.Undisturbed change) .initial changes := by
  apply everyState_iff_everyStep fun observed => Mirrors observed.registry observed.proxy
  · exact mirrors_empty
  · rintro observed ⟨registrations, represents, live⟩
    exact represents.reportsLive_iff.mpr live
  · intro observed change mirrors undisturbed
    exact mirrors.change codec undisturbed
  · intro observed change _ mirrors reports
    cases change with
    | put key info =>
      simp only [Observed.change, watcherCallback_eventsOf_put] at reports
      exact mirrors.undisturbed_put reports
    | delete key =>
      cases found : observed.registry.find? key with
      | none => simp [Registry.Undisturbed, found]
      | some info =>
        simp only [Observed.change, watcherCallback_eventsOf_delete codec _ found] at reports
        exact mirrors.undisturbed_delete found reports

/-- The key of a first registration of the service `echo`. -/
def echoKey : RegistrationKey := ⟨"echo:1", by decide⟩

/-- The key of a second registration of the service `echo`. -/
def echoKey' : RegistrationKey := ⟨"echo:2", by decide⟩

/-- An instance that restarts in another region before its old registration expires is lost when
the old one does. -/
theorem not_everyState_reportsLive : ¬ ∀ changes, EveryState (Observed.change wireCodec)
      (fun observed => ReportsLive observed.registry observed.proxy) .initial changes := by
  intro always
  have final := (always [.put echoKey ⟨1, 1, "10.0.0.1:80"⟩,
    .put echoKey' ⟨2, 1, "10.0.0.1:80"⟩, .delete echoKey]).final
  have reported := (final "echo" 2 1 "10.0.0.1:80").mpr ⟨echoKey', by decide, by decide⟩
  revert reported
  decide

end NameServiceProxy
end McBrpc
