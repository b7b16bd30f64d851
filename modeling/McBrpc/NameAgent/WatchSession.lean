import McBrpc.NameAgent.RegistryMirror

/-!
# Watch sessions

The agent lists the registry once, then watches it; a broken watch is created again without a
new listing.  Changes made while no watch is in place, after the listing, are never seen.
-/

namespace McBrpc

open NameServiceProxy Registry List KeyedMap

/-- Where the agent stands with the registry. -/
inductive Phase (Value : Type)
  | starting
  | listed
  | watching (pending : List (Event Value))
  | broken

/-- The registry, the table of the agent and the state of its watch. -/
structure Session (Value : Type) where
  registry : Registry
  proxy : NameServiceProxy
  phase : Phase Value

/-- A step of the registry or of the agent. -/
inductive SessionAction
  | change (change : RegistryChange)
  | initServers
  | initializeWatcher
  | watcherCallback
  | breakWatch

namespace Session

variable {Value : Type} (codec : InstanceCodec Value)

/-- An empty registry and an agent that has not started. -/
def initial : Session Value := ⟨∅, empty, .starting⟩

def listing (registry : Registry) : List (String × Value) :=
  registry.entries.map fun entry => (entry.1.val, codec.serializeAsString entry.2)

inductive Step : Session Value → SessionAction → Session Value → Prop
  | changeUnwatched {registry : Registry} {proxy : NameServiceProxy} {phase : Phase Value}
      (change : RegistryChange) (unwatched : ∀ pending, phase ≠ .watching pending) :
      Step ⟨registry, proxy, phase⟩ (.change change) ⟨registry.apply change, proxy, phase⟩
  | changeWatched {registry : Registry} {proxy : NameServiceProxy} {pending : List (Event Value)}
      (change : RegistryChange) :
      Step ⟨registry, proxy, .watching pending⟩ (.change change)
        ⟨registry.apply change, proxy, .watching (pending ++ registry.eventsOf codec change)⟩
  | initServers {registry : Registry} {proxy : NameServiceProxy} :
      Step ⟨registry, proxy, .starting⟩ .initServers
        ⟨registry, proxy.initServers codec (listing codec registry), .listed⟩
  | initializeWatcher {registry : Registry} {proxy : NameServiceProxy} :
      Step ⟨registry, proxy, .listed⟩ .initializeWatcher ⟨registry, proxy, .watching []⟩
  | reinitializeWatcher {registry : Registry} {proxy : NameServiceProxy} :
      Step ⟨registry, proxy, .broken⟩ .initializeWatcher ⟨registry, proxy, .watching []⟩
  | watcherCallback {registry : Registry} {proxy : NameServiceProxy}
      {response later : List (Event Value)} :
      Step ⟨registry, proxy, .watching (response ++ later)⟩ .watcherCallback
        ⟨registry, proxy.watcherCallback codec response, .watching later⟩
  | breakWatch {registry : Registry} {proxy : NameServiceProxy} {pending : List (Event Value)} :
      Step ⟨registry, proxy, .watching pending⟩ .breakWatch ⟨registry, proxy, .broken⟩

/-- Puts are of registrations from the catalogue. -/
def FromCatalogue (catalogue : Set (RegistrationKey × InstanceInfo)) : SessionAction → Prop
  | .change (.put key info) => (key, info) ∈ catalogue
  | _ => True

/-- Every registration has an endpoint of its own. -/
def OwnEndpoints (catalogue : Set (RegistrationKey × InstanceInfo)) : Prop :=
  ∀ left ∈ catalogue, ∀ right ∈ catalogue, left.2.endpoint = right.2.endpoint → left = right

/-- After the listing the registry changes only under a watch, a put under a watch replaces no
other registration of its key, and a watch breaks only when it has delivered everything. -/
def Witnessed (session : Session Value) : SessionAction → Prop
  | .change change =>
    match session.phase with
    | .starting => True
    | .watching _ =>
      match change with
      | .put key info => ∀ old, session.registry.find? key = some old → old = info
      | .delete _ => True
    | .listed | .broken =>
      ∀ key, (session.registry.apply change).find? key = session.registry.find? key
  | .breakWatch => session.phase = .watching []
  | _ => True

/-- Reachability by steps on catalogued registrations. -/
def Reaches (catalogue : Set (RegistrationKey × InstanceInfo)) :
    Session Value → Session Value → Prop :=
  Relation.ReflTransGen fun before after =>
    ∃ action, Step codec before action after ∧ FromCatalogue catalogue action

/-- Reachability by steps that are also witnessed. -/
def WitnessedReaches (catalogue : Set (RegistrationKey × InstanceInfo)) :
    Session Value → Session Value → Prop :=
  Relation.ReflTransGen fun before after =>
    ∃ action, Step codec before action after ∧ FromCatalogue catalogue action ∧
      before.Witnessed action

theorem represents_initServers {entries : List (Σ _ : RegistrationKey, InstanceInfo)}
    {regs : List Registration} {proxy : NameServiceProxy}
    (rep : Represents regs proxy)
    (apart : (entries.map fun entry => entry.2.endpoint).Nodup)
    (unknown : ∀ entry ∈ entries, entry.2.endpoint ∉ proxy.endPoints) :
    Represents (regs ++ entries.map fun entry => ⟨entry.1.service, entry.2⟩)
      (proxy.initServers codec
        (entries.map fun entry => (entry.1.val, codec.serializeAsString entry.2))) := by
  induction entries generalizing regs proxy with
  | nil => simpa [initServers] using rep
  | cons entry entries ih =>
    obtain ⟨key, info⟩ := entry
    have newEndpoint : info.endpoint ∉ proxy.endPoints := unknown ⟨key, info⟩ mem_cons_self
    obtain ⟨absent, apart⟩ := nodup_cons.mp apart
    have added : Represents (regs ++ [⟨key.service, info⟩])
        (proxy.addServer key.service info) := rep.addServer newEndpoint
    have rest := ih added apart ?_
    · simpa [initServers, key.ne_dumpLock, codec.parse_serialize, RegistrationKey.service]
        using rest
    · intro later mem
      rw [endPoints_addServer, Finset.mem_insert, not_or]
      constructor
      · intro same
        exact absent (mem_map.mpr ⟨later, mem, same⟩)
      · exact unknown later (mem_cons_of_mem _ mem)

/-- All live registrations are from the catalogue. -/
def Catalogued (catalogue : Set (RegistrationKey × InstanceInfo)) (registry : Registry) : Prop :=
  ∀ key info, registry.find? key = some info → (key, info) ∈ catalogue

variable {catalogue : Set (RegistrationKey × InstanceInfo)} {registry : Registry}

theorem mirrors_initServers (own : OwnEndpoints catalogue)
    (catalogued : Catalogued catalogue registry) :
    Mirrors registry (empty.initServers codec (listing codec registry)) := by
  have apart : (registry.entries.map fun entry => entry.2.endpoint).Nodup := by
    refine Nodup.map_on ?_ registry.nodupKeys.nodup
    rintro ⟨key, info⟩ left_mem ⟨key', info'⟩ right_mem same
    have equal := own _ (catalogued _ _ ((mem_entries_iff _ _ _).mp left_mem)) _
      (catalogued _ _ ((mem_entries_iff _ _ _).mp right_mem)) same
    obtain ⟨rfl, rfl⟩ := Prod.mk.inj equal
    rfl
  have represents := represents_initServers codec represents_empty apart (by simp [empty])
  refine ⟨_, represents, ?_⟩
  rintro ⟨service, info⟩
  simp only [nil_append, mem_map, Live, Registration.mk.injEq]
  constructor
  · rintro ⟨⟨key, info'⟩, mem, rfl, rfl⟩
    exact ⟨key, rfl, (mem_entries_iff _ _ _).mp mem⟩
  · rintro ⟨key, rfl, found⟩
    exact ⟨⟨key, info⟩, (mem_entries_iff _ _ _).mpr found, rfl, rfl⟩

def Consistent (session : Session Value) : Prop :=
  match session.phase with
  | .starting => session.proxy = empty
  | .listed | .broken => Mirrors session.registry session.proxy
  | .watching pending =>
    (∀ event ∈ pending, event.key ≠ nameAgentDumpLock) ∧
      Mirrors session.registry (session.proxy.watcherCallback codec pending)

theorem catalogued_apply {change : RegistryChange} (catalogued : Catalogued catalogue registry)
    (fromCatalogue : FromCatalogue catalogue (.change change)) :
    Catalogued catalogue (registry.apply change) := by
  intro key info found
  cases change with
  | put key' info' =>
    rw [Registry.apply, find?_insert] at found
    split at found
    · next same =>
      obtain rfl := Option.some.inj found
      rw [same]
      exact fromCatalogue
    · exact catalogued key info found
  | delete key' =>
    rw [Registry.apply, find?_erase] at found
    split at found
    · simp at found
    · exact catalogued key info found

theorem undisturbed_of_own (own : OwnEndpoints catalogue)
    (catalogued : Catalogued catalogue registry) {change : RegistryChange}
    (fromCatalogue : FromCatalogue catalogue (.change change))
    (keeps : ∀ key info, change = .put key info →
      ∀ old, registry.find? key = some old → old = info) : registry.Undisturbed change := by
  cases change with
  | put key info =>
    refine ⟨fun old found => .inl (keeps key info rfl old found), ?_⟩
    rintro ⟨other, stored, found, same⟩
    have equal := own _ (catalogued other stored found) _ fromCatalogue same
    obtain ⟨rfl, rfl⟩ := Prod.mk.inj equal
    exact ⟨other, rfl, found⟩
  | delete key =>
    intro info found other stored ne foundOther same
    have equal := own _ (catalogued other stored foundOther) _ (catalogued key info found) same
    exact ne (Prod.mk.inj equal).1

theorem mirrors_congr {registry' : Registry} {proxy : NameServiceProxy}
    (same : ∀ key, registry'.find? key = registry.find? key) (mirrors : Mirrors registry proxy)
    : Mirrors registry' proxy := by
  obtain ⟨regs, rep, live⟩ := mirrors
  refine ⟨regs, rep, ?_⟩
  simpa [Live, same] using live

theorem consistent_step (own : OwnEndpoints catalogue) {before after : Session Value}
    {action : SessionAction} (catalogued : Catalogued catalogue before.registry)
    (sound : before.Consistent codec) (step : Step codec before action after)
    (fromCatalogue : FromCatalogue catalogue action) (witnessed : before.Witnessed action) :
    Catalogued catalogue after.registry ∧ after.Consistent codec := by
  cases step with
  | @changeUnwatched registry proxy phase change unwatched =>
    refine ⟨catalogued_apply catalogued fromCatalogue, ?_⟩
    cases phase with
    | starting => exact sound
    | listed => exact mirrors_congr witnessed sound
    | broken => exact mirrors_congr witnessed sound
    | watching pending => exact absurd rfl (unwatched pending)
  | @changeWatched registry proxy pending change =>
    refine ⟨catalogued_apply catalogued fromCatalogue, ?_⟩
    obtain ⟨unlocked, mirrors⟩ := sound
    have undisturbed : registry.Undisturbed change := by
      refine undisturbed_of_own own catalogued fromCatalogue ?_
      rintro key info rfl
      exact witnessed
    constructor
    · intro event mem
      rcases mem_append.mp mem with mem | mem
      · exact unlocked event mem
      · exact eventsOf_key_ne_dumpLock codec registry change event mem
    · rw [watcherCallback_append codec proxy unlocked]
      exact mirrors.change codec undisturbed
  | @initServers registry proxy =>
    refine ⟨catalogued, ?_⟩
    obtain rfl : proxy = empty := sound
    exact mirrors_initServers codec own catalogued
  | initializeWatcher | reinitializeWatcher => exact ⟨catalogued, by simp, sound⟩
  | @watcherCallback registry proxy response later =>
    obtain ⟨unlocked, mirrors⟩ := sound
    refine ⟨catalogued, ?_, ?_⟩
    · intro event mem
      exact unlocked event (mem_append_right _ mem)
    · rw [watcherCallback_append codec proxy] at mirrors
      · exact mirrors
      · intro event mem
        exact unlocked event (mem_append_left _ mem)
  | @breakWatch registry proxy pending =>
    refine ⟨catalogued, ?_⟩
    obtain ⟨-, mirrors⟩ := sound
    obtain rfl : pending = [] := by simpa [Witnessed] using witnessed
    exact mirrors

/-- When every step of a session is witnessed, the table equals the set of live registrations
whenever a watch is in place and its events have been handled. -/
theorem mirrors_of_witnessedReaches {catalogue : Set (RegistrationKey × InstanceInfo)}
    (own : OwnEndpoints catalogue) {session : Session Value}
    (reach : WitnessedReaches codec catalogue initial session)
    (quiet : session.phase = .watching []) : Mirrors session.registry session.proxy := by
  have invariant : Catalogued catalogue session.registry ∧ session.Consistent codec := by
    refine Execution.reachable_invariant
      (fun session => Catalogued catalogue session.registry ∧ session.Consistent codec)
      ⟨?_, rfl⟩ ?_ reach
    · intro key info found
      simp [initial] at found
    · rintro before after ⟨catalogued, consistent⟩ ⟨action, step, fromCatalogue, witnessed⟩
      exact consistent_step codec own catalogued consistent step fromCatalogue witnessed
  obtain ⟨-, consistent⟩ := invariant
  rw [Consistent, quiet] at consistent
  exact consistent.2

/-- A registration put after the creation of the watch is in the table once its event has been
handled. -/
theorem mirrors_of_watched_put : ∃ session : Session (List UInt8),
      WitnessedReaches wireCodec {(echoKey, ⟨1, 1, "10.0.0.1:80"⟩)} initial session ∧
        session.phase = .watching [] ∧
        session.registry.find? echoKey = some ⟨1, 1, "10.0.0.1:80"⟩ ∧
        Mirrors session.registry session.proxy := by
  have own : OwnEndpoints {(echoKey, (⟨1, 1, "10.0.0.1:80"⟩ : InstanceInfo))} := by
    rintro left rfl right rfl -
    rfl
  let events := (∅ : Registry).eventsOf wireCodec (.put echoKey ⟨1, 1, "10.0.0.1:80"⟩)
  have reach : WitnessedReaches wireCodec {(echoKey, ⟨1, 1, "10.0.0.1:80"⟩)} initial
      ⟨(∅ : Registry).apply (.put echoKey ⟨1, 1, "10.0.0.1:80"⟩),
        (empty.initServers wireCodec (listing wireCodec ∅)).watcherCallback wireCodec events,
        .watching []⟩ := by
    refine .head ⟨_, .initServers, trivial, trivial⟩ ?_
    refine .head ⟨_, .initializeWatcher, trivial, trivial⟩ ?_
    refine .head ⟨_, .changeWatched (.put echoKey ⟨1, 1, "10.0.0.1:80"⟩), rfl, ?_⟩ ?_
    · intro old found
      simp at found
    · rw [nil_append, ← append_nil (Registry.eventsOf _ _ _)]
      exact .single ⟨_, .watcherCallback, trivial, trivial⟩
  exact ⟨_, reach, rfl, by decide, mirrors_of_witnessedReaches wireCodec own reach rfl⟩

/-- A registration put between the listing and the creation of the watch never reaches the
table. -/
theorem not_mirrors_of_gap :
    ¬ ∀ catalogue : Set (RegistrationKey × InstanceInfo), OwnEndpoints catalogue →
      ∀ session : Session (List UInt8), Reaches wireCodec catalogue initial session →
        session.phase = .watching [] → Mirrors session.registry session.proxy := by
  intro always
  have own : OwnEndpoints {(echoKey, (⟨1, 1, "10.0.0.1:80"⟩ : InstanceInfo))} := by
    rintro left rfl right rfl -
    rfl
  have reach : Reaches wireCodec {(echoKey, ⟨1, 1, "10.0.0.1:80"⟩)} initial
      ⟨(∅ : Registry).apply (.put echoKey ⟨1, 1, "10.0.0.1:80"⟩),
        empty.initServers wireCodec (listing wireCodec ∅), .watching []⟩ := by
    refine .head ⟨_, .initServers, trivial⟩ ?_
    refine .head ⟨_, .changeUnwatched (.put echoKey ⟨1, 1, "10.0.0.1:80"⟩) (by simp), rfl⟩ ?_
    exact .single ⟨_, .initializeWatcher, trivial⟩
  obtain ⟨registrations, represents, live⟩ := always _ own _ reach rfl
  have held : (⟨"echo", ⟨1, 1, "10.0.0.1:80"⟩⟩ : Registration) ∈ registrations :=
    (live _).mpr ⟨echoKey, by decide, by decide⟩
  have listed := (represents.endPoints "10.0.0.1:80").mpr ⟨_, held, rfl⟩
  exact absurd listed (by decide)

end Session
end McBrpc
