import McBrpc.NameAgent.InstanceCodec
import Mathlib.Data.Fintype.EquivFin

/-!
# The registry watcher

`initServers` enters the registrations of a registry listing and `watcherCallback` replays the
events of one watch response.  The message codec is a parameter: of it the agent uses only that
parsing inverts serialization.
-/

namespace McBrpc

open List

/-- The registry key of the lock that elects the agent which dumps the table. -/
def nameAgentDumpLock : String := "name_service_dump_lock"

/-- The text of a key before its first colon, or the whole key if it has none. -/
def serviceNameOf (key : String) : String := String.ofList (key.toList.takeWhile (· ≠ ':'))

/-- One registry event with the key and the value that the watcher reads for its type: the
current value of a put and the previous value of a delete. -/
inductive Event (Value : Type)
  | put (key : String) (value : Value)
  | delete (key : String) (prevValue : Value)
  | invalid (key : String)

def Event.key {Value : Type} : Event Value → String
  | put key _ => key
  | delete key _ => key
  | invalid key => key

namespace NameServiceProxy

variable {Value : Type} (codec : InstanceCodec Value)

/-- Enter the registrations of a listing, skipping the dump lock and unparsable values. -/
def initServers (proxy : NameServiceProxy) : List (String × Value) → NameServiceProxy
  | [] => proxy
  | (key, value) :: rest =>
    if key = nameAgentDumpLock then
      proxy.initServers rest
    else
      match codec.parseFromString value with
      | none => proxy.initServers rest
      | some info => (proxy.addServer (serviceNameOf key) info).initServers rest

/-- The effect of one event on a key other than the dump lock. -/
def handleEvent (proxy : NameServiceProxy) : Event Value → NameServiceProxy
  | .put key value =>
    match codec.parseFromString value with
    | none => proxy
    | some info => proxy.addServer (serviceNameOf key) info
  | .delete key prevValue =>
    match codec.parseFromString prevValue with
    | none => proxy
    | some info => proxy.removeServer (serviceNameOf key) info
  | .invalid _ => proxy

/-- Replay the events of one response.  An event on the dump lock ends the call. -/
def watcherCallback (proxy : NameServiceProxy) : List (Event Value) → NameServiceProxy
  | [] => proxy
  | event :: events =>
    if event.key = nameAgentDumpLock then
      proxy
    else
      (proxy.handleEvent codec event).watcherCallback events

section

variable (proxy : NameServiceProxy)
include proxy

@[simp]
theorem handleEvent_put_serialize (key : String) (info : InstanceInfo) :
    proxy.handleEvent codec (.put key (codec.serializeAsString info)) =
      proxy.addServer (serviceNameOf key) info := by
  simp [handleEvent, codec.parse_serialize]

@[simp]
theorem handleEvent_delete_serialize (key : String) (info : InstanceInfo) :
    proxy.handleEvent codec (.delete key (codec.serializeAsString info)) =
      proxy.removeServer (serviceNameOf key) info := by
  simp [handleEvent, codec.parse_serialize]

theorem watcherCallback_append {first : List (Event Value)}
    (unlocked : ∀ event ∈ first, event.key ≠ nameAgentDumpLock) (second : List (Event Value)) :
    proxy.watcherCallback codec (first ++ second) =
      (proxy.watcherCallback codec first).watcherCallback codec second := by
  induction first generalizing proxy with
  | nil => rfl
  | cons event first ih =>
    have here := unlocked event mem_cons_self
    have later : ∀ event ∈ first, event.key ≠ nameAgentDumpLock :=
      fun event mem => unlocked event (mem_cons_of_mem _ mem)
    simp only [cons_append, watcherCallback, here, if_false]
    exact ih _ later

theorem watcherCallback_append_of_lock {first : List (Event Value)}
    (locked : ∃ event ∈ first, event.key = nameAgentDumpLock) (second : List (Event Value)) :
    proxy.watcherCallback codec (first ++ second) = proxy.watcherCallback codec first := by
  induction first generalizing proxy with
  | nil => simp at locked
  | cons event first ih =>
    by_cases here : event.key = nameAgentDumpLock
    · simp [watcherCallback, here]
    · have later : ∃ event ∈ first, event.key = nameAgentDumpLock := by
        simpa [here] using locked
      simp only [cons_append, watcherCallback, here, if_false]
      exact ih _ later

end

/-- Events that the callback is meant to pass over. -/
def Inert : Event Value → Prop
  | .put key value => key = nameAgentDumpLock ∨ codec.parseFromString value = none
  | .delete key prevValue => key = nameAgentDumpLock ∨ codec.parseFromString prevValue = none
  | .invalid _ => True

variable (proxy : NameServiceProxy)

theorem watcherCallback_inert {event : Event Value} (inert : Inert codec event) :
    proxy.watcherCallback codec [event] = proxy := by
  cases event with
  | put | delete =>
    rcases inert with locked | unparsable
    · simp [watcherCallback, Event.key, locked]
    · simp [watcherCallback, handleEvent, unparsable]
  | invalid key => simp [watcherCallback, handleEvent]

theorem exists_put_ne : ∃ event : Event Value, proxy.watcherCallback codec [event] ≠ proxy := by
  obtain ⟨endpoint, unknown⟩ := Infinite.exists_notMem_finset proxy.endPoints
  have unlocked : "echo:1" ≠ nameAgentDumpLock := by decide
  refine ⟨.put "echo:1" (codec.serializeAsString ⟨0, 0, endpoint⟩), ?_⟩
  simp only [watcherCallback, Event.key, unlocked, if_false, handleEvent_put_serialize]
  intro same
  have grown :
      endpoint ∈ (proxy.addServer (serviceNameOf "echo:1") ⟨0, 0, endpoint⟩).endPoints := by
    simp [endPoints_addServer]
  rw [same] at grown
  exact unknown grown

/-- A response `first ++ second` acts as the responses `first` and `second`, whatever `second` is,
and inert events have no effect by themselves, exactly when `first` has no event on the dump
lock. -/
theorem watcherCallback_append_iff (first : List (Event Value)) :
    ((∀ second, proxy.watcherCallback codec (first ++ second) =
        (proxy.watcherCallback codec first).watcherCallback codec second) ∧
      ∀ (before : NameServiceProxy) (event : Event Value), Inert codec event →
        before.watcherCallback codec [event] = before) ↔
      ∀ event ∈ first, event.key ≠ nameAgentDumpLock := by
  constructor
  · rintro ⟨splits, -⟩ event event_mem locked
    obtain ⟨change, effective⟩ := exists_put_ne codec (proxy.watcherCallback codec first)
    apply effective
    rw [← splits, watcherCallback_append_of_lock codec proxy ⟨event, event_mem, locked⟩]
  · intro unlocked
    refine ⟨watcherCallback_append codec proxy unlocked, ?_⟩
    intro before event inert
    exact watcherCallback_inert codec before inert

/-- A registration behind a lock event of the same response is lost. -/
theorem not_watcherCallback_append :
    ¬ ∀ (proxy : NameServiceProxy) (first second : List (Event (List UInt8))),
      proxy.watcherCallback wireCodec (first ++ second) =
        (proxy.watcherCallback wireCodec first).watcherCallback wireCodec second := by
  intro law
  have joined := law empty [.delete nameAgentDumpLock []]
    [.put "echo:1" (wireCodec.serializeAsString ⟨1, 1, "10.0.0.1:80"⟩)]
  have endPoints := congrArg NameServiceProxy.endPoints joined
  revert endPoints
  decide

end NameServiceProxy
end McBrpc
