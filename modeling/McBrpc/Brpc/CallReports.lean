import McBrpc.Brpc.Controller
import McBrpc.Library.Execution

/-!
# Reports about calls

Which reports of `OnVersionedRPCReturned` name the server of the call that has come to its end,
with the error code it ended with.  A report names the server selected last, so it is right as
long as that is the server of the current call and the current call is the one that ends.
-/

namespace McBrpc.RpcOptions

open List Option CallId RpcEvent Execution

variable (opts : RpcOptions)

/-- The server of a call, `EndPoint()` if none was selected for it. -/
def serverOf (nretry : Nat) : EndPoint := (opts.issue nretry).server.getD noEndPoint

/-- `SelectServer` fails for a call only if it has failed for every call before. -/
def SelectsServers : Prop :=
  ∀ nretry, (opts.issue nretry).server = none →
    ∀ earlier < nretry, (opts.issue earlier).server = none

/-- The call that comes to its end: the one with the id, for the correlation id the current one.
When a backup request is to be sent no call does. -/
def completedCall (made : LbReport) : Option Nat :=
  match made.completion.id with
  | .versioned nretry => some nretry
  | .correlation =>
    if made.completion.outcome = eBackupRequest ∧ made.nretry < opts.maxRetry then none
    else some made.nretry

/-- The report names the server of the call that came to its end, and how it ended. -/
def Faithful (made : LbReport) : Prop :=
  ∃ nretry, opts.completedCall made = some nretry ∧ made.remoteSide = opts.serverOf nretry ∧
    made.errorCode = made.completion.outcome

/-- The backup request timer fires only if there are no retries left, and the call before a backup
request succeeds only if both went to the same server. -/
def Admissible (rpc : Rpc) (event : RpcEvent) : Prop :=
  rpc.ended = false →
    match event with
    | .response nretry errorCode => nretry ≠ rpc.nretry → rpc.unfinished = some nretry →
        errorCode = 0 → opts.serverOf nretry = opts.serverOf rpc.nretry
    | .timer .backupRequest => .backupRequest ∈ rpc.timers → opts.maxRetry ≤ rpc.nretry
    | _ => True

def AllFaithful (rpc : Rpc) : Prop := ∀ made ∈ rpc.reports, opts.Faithful made

/-- The remote side of an RPC that goes on is the server of its current call, and no error is
set. -/
structure InFlight (rpc : Rpc) : Prop where
  remoteSide_eq : rpc.ended = false → rpc.remoteSide = opts.serverOf rpc.nretry
  errorCode_eq : rpc.ended = false → rpc.errorCode = 0
  nretry_le : rpc.nretry ≤ opts.maxRetry

/-- A return adds its own report and then faithful ones, of the calls issued in it that fail at
once. -/
structure Returns (before : Rpc) (completion : Completion) (after : Rpc) : Prop where
  inFlight : opts.InFlight after
  reports_eq : ∃ later, after.reports = before.reports ++
    ⟨completion, before.nretry, before.remoteSide, before.errorCode⟩ :: later ∧
      ∀ made ∈ later, opts.Faithful made

variable {opts} {rpc next : Rpc}

theorem faithful_of_versioned {nretry : Nat} {responded : Bool} {code : Int} {current : Nat}
    {remoteSide : EndPoint} (server : remoteSide = opts.serverOf nretry) :
    opts.Faithful ⟨⟨.versioned nretry, responded, code⟩, current, remoteSide, code⟩ :=
  ⟨nretry, rfl, server, rfl⟩

theorem serverOf_of_some {nretry : Nat} {server : EndPoint}
    (chosen : (opts.issue nretry).server = some server) : opts.serverOf nretry = server := by
  rw [serverOf, chosen, getD_some]

theorem serverOf_of_none {nretry : Nat} (unselected : (opts.issue nretry).server = none) :
    opts.serverOf nretry = noEndPoint := by
  rw [serverOf, unselected, getD_none]

theorem endRPC_returns {ending : Rpc} {id : CallId} {completion : Completion}
    (bound : ending.nretry ≤ opts.maxRetry)
    (reports_eq : ending.reports = (report completion rpc).reports) :
    opts.Returns rpc completion (opts.endRPC id ending) := by
  refine ⟨⟨?_, ?_, bound⟩, [], reports_eq, by simp⟩
  · intro going
    simp [endRPC] at going
  · intro going
    simp [endRPC] at going

theorem nextCall_error {ending : Rpc} (ends : opts.nextCall rpc = .error ending) :
    ending.nretry = rpc.nretry ∧ ending.reports = rpc.reports := by
  unfold nextCall at ends
  split_ifs at ends <;> cases ends <;> exact ⟨rfl, rfl⟩

theorem nextCall_ok (goes : opts.nextCall rpc = .ok next) :
    next.nretry = rpc.nretry + 1 ∧ next.reports = rpc.reports ∧
      next.remoteSide = rpc.remoteSide ∧ next.ended = rpc.ended := by
  unfold nextCall at goes
  split_ifs at goes <;> cases goes <;> exact ⟨rfl, rfl, rfl, rfl⟩

/-- The calls that are issued fail at once, each with a faithful report, until one is sent or the
RPC ends. -/
theorem issueRPC_faithful (returned : Completion → Rpc → Rpc) (next : Rpc)
    (returns : ∀ completion failed, failed.nretry = next.nretry → failed.ended = false →
      failed.remoteSide = opts.serverOf failed.nretry →
        opts.Returns failed completion (returned completion failed))
    (bound : next.nretry ≤ opts.maxRetry) (going : next.ended = false)
    (unselected : (opts.issue next.nretry).server = none → next.remoteSide = noEndPoint) :
    opts.InFlight (opts.issueRPC returned next) ∧
      ∃ later, (opts.issueRPC returned next).reports = next.reports ++ later ∧
        ∀ made ∈ later, opts.Faithful made := by
  have failing : ∀ (remoteSide : EndPoint) (errorCode : Int),
      remoteSide = opts.serverOf next.nretry →
      let after := returned ⟨.versioned next.nretry, false, errorCode⟩
        { next with remoteSide := remoteSide, errorCode := errorCode }
      opts.InFlight after ∧ ∃ later, after.reports = next.reports ++ later ∧
        ∀ made ∈ later, opts.Faithful made := by
    intro remoteSide errorCode server
    obtain ⟨flying, later, reports_eq, faithful⟩ :=
      returns ⟨.versioned next.nretry, false, errorCode⟩
        { next with remoteSide := remoteSide, errorCode := errorCode } rfl going server
    refine ⟨flying, _, reports_eq, ?_⟩
    intro made member
    obtain rfl | member := mem_cons.mp member
    · exact faithful_of_versioned server
    · exact faithful made member
  unfold issueRPC
  cases issued : opts.issue next.nretry with
  | selectFailed errorCode =>
    have unselected := unselected (by rw [issued]; rfl)
    refine failing next.remoteSide (setFailedCode errorCode) ?_
    rw [unselected, serverOf_of_none (by rw [issued]; rfl)]
  | sendFailed server errorCode =>
    exact failing server (setFailedCode errorCode)
      (serverOf_of_some (by rw [issued]; rfl)).symm
  | sent server =>
    refine ⟨⟨fun _ => ?_, fun _ => rfl, bound⟩, [], (append_nil _).symm, by simp⟩
    exact (serverOf_of_some (by rw [issued]; rfl)).symm

theorem onReturned_returns (selects : opts.SelectsServers) {retries : Nat}
    {completion : Completion} (bound : rpc.nretry + retries = opts.maxRetry)
    (going : rpc.ended = false) (server : rpc.remoteSide = opts.serverOf rpc.nretry) :
    opts.Returns rpc completion (opts.onReturned retries completion rpc) := by
  induction retries generalizing rpc completion with
  | zero => exact endRPC_returns (by simp [report]; omega) rfl
  | succ retries ih =>
    unfold onReturned
    cases goes : opts.nextCall (report completion rpc) with
    | error ending =>
      obtain ⟨nretry_eq, reports_eq⟩ := nextCall_error goes
      refine endRPC_returns ?_ reports_eq
      rw [nretry_eq]
      simp only [report]
      omega
    | ok next =>
      obtain ⟨nretry_eq, reports_eq, remoteSide_eq, ended_eq⟩ := nextCall_ok goes
      simp only [report] at nretry_eq reports_eq remoteSide_eq ended_eq
      obtain ⟨flying, later, issued_eq, faithful⟩ :=
        issueRPC_faithful (opts.onReturned retries) next
          (fun _ _ same_call failed_going failed_server =>
            ih (by omega) failed_going failed_server)
          (by omega) (ended_eq.trans going) (by
            intro unselected
            have before := selects _ unselected rpc.nretry (by omega)
            rw [remoteSide_eq, server, serverOf_of_none before])
      refine ⟨flying, later, ?_, faithful⟩
      rw [issued_eq, reports_eq, append_assoc, singleton_append]

/-- What an event does to an RPC that goes on: nothing is reported of a call that was given up and
of a failed call before a backup request; anything else is reported against the current server. -/
theorem deliver_cases (selects : opts.SelectsServers) (flying : opts.InFlight rpc)
    (going : rpc.ended = false) (completion : Completion) :
    (opts.InFlight (opts.deliver completion rpc) ∧
        (opts.deliver completion rpc).reports = rpc.reports ∧
        ∃ nretry, completion.id = .versioned nretry ∧ nretry ≠ rpc.nretry ∧
          (rpc.unfinished = some nretry → completion.outcome ≠ 0)) ∨
      (opts.Returns { rpc with errorCode := completion.outcome } completion
          (opts.deliver completion rpc) ∧
        ∀ nretry, completion.id = .versioned nretry → nretry ≠ rpc.nretry →
          rpc.unfinished = some nretry ∧ completion.outcome = 0) := by
  have no_error := flying.errorCode_eq going
  have failed_eq : (if completion.outcome = 0 then rpc
      else { rpc with errorCode := completion.outcome }) =
        { rpc with errorCode := completion.outcome } := by
    split
    case isTrue success => rw [success, ← no_error]
    case isFalse => rfl
  have goOn : opts.Returns { rpc with errorCode := completion.outcome } completion
      (opts.onReturned (opts.maxRetry - rpc.nretry) completion
        { rpc with errorCode := completion.outcome }) :=
    onReturned_returns selects (Nat.add_sub_cancel' flying.nretry_le) going
      (flying.remoteSide_eq going)
  unfold deliver
  rw [failed_eq]
  unfold onVersionedRPCReturned
  cases id_eq : completion.id with
  | correlation =>
    refine .inr ⟨goOn, ?_⟩
    intro nretry id_eq
    cases id_eq
  | versioned nretry =>
    dsimp only
    by_cases current : nretry = rpc.nretry
    case pos =>
      rw [if_pos current]
      refine .inr ⟨goOn, ?_⟩
      intro other id_eq ne
      obtain rfl := versioned.inj id_eq
      exact absurd current ne
    case neg =>
      rw [if_neg current]
      split
      case isTrue unfinished =>
        split
        case isTrue success =>
          refine .inr ⟨goOn, ?_⟩
          intro other id_eq ne
          obtain rfl := versioned.inj id_eq
          exact ⟨unfinished, success⟩
        case isFalse failure =>
          refine .inl ⟨⟨flying.remoteSide_eq, fun _ => no_error, flying.nretry_le⟩, rfl,
            nretry, rfl, current, fun _ => failure⟩
      case isFalse other =>
        refine .inl ⟨⟨flying.remoteSide_eq, fun _ => no_error, flying.nretry_le⟩, rfl,
          nretry, rfl, current, fun unfinished => absurd unfinished other⟩

section Event

variable (flying : opts.InFlight rpc) (going : rpc.ended = false) (completion : Completion)
include flying going

theorem faithful_iff : opts.Faithful ⟨completion, rpc.nretry, rpc.remoteSide, completion.outcome⟩ ↔
      (∀ nretry, completion.id = .versioned nretry →
        opts.serverOf nretry = opts.serverOf rpc.nretry) ∧
      (completion.id = .correlation → completion.outcome = eBackupRequest →
        opts.maxRetry ≤ rpc.nretry) := by
  unfold Faithful completedCall
  rw [flying.remoteSide_eq going]
  cases id_eq : completion.id with
  | versioned nretry =>
    simp only [some.injEq, and_true, exists_eq_left', versioned.injEq, forall_eq',
      reduceCtorEq, false_implies]
    exact eq_comm
  | correlation =>
    simp only [reduceCtorEq, false_implies, implies_true, true_and, and_true, true_implies]
    split
    case isTrue backup =>
      refine iff_of_false (by simp) ?_
      intro exhausted
      omega
    case isFalse other =>
      refine iff_of_true ⟨rpc.nretry, rfl, rfl⟩ ?_
      intro backup
      by_contra left
      exact other ⟨backup, by omega⟩

/-- Reports that were faithful so far stay so under the two conditions on the event. -/
theorem deliver_spec (selects : opts.SelectsServers) {valid : Prop}
    (conditions : valid ↔ (∀ nretry, completion.id = .versioned nretry →
        nretry ≠ rpc.nretry → rpc.unfinished = some nretry → completion.outcome = 0 →
          opts.serverOf nretry = opts.serverOf rpc.nretry) ∧
      (completion.id = .correlation → completion.outcome = eBackupRequest →
        opts.maxRetry ≤ rpc.nretry)) :
    opts.InFlight (opts.deliver completion rpc) ∧
      (opts.AllFaithful rpc → (opts.AllFaithful (opts.deliver completion rpc) ↔ valid)) := by
  rw [conditions]
  obtain ⟨after, reports_eq, nretry, id_eq, ne, failure⟩ | ⟨returned, success⟩ :=
    deliver_cases selects flying going completion
  · refine ⟨after, fun faithful =>
      iff_of_true (by simpa only [AllFaithful, reports_eq] using faithful) ⟨?_, ?_⟩⟩
    · intro other other_id _ unfinished outcome_eq
      obtain rfl := versioned.inj (id_eq.symm.trans other_id)
      exact absurd outcome_eq (failure unfinished)
    · intro correlation
      rw [id_eq] at correlation
      cases correlation
  · refine ⟨returned.inFlight, fun faithful => ?_⟩
    obtain ⟨later, reports_eq, later_faithful⟩ := returned.reports_eq
    have only_first : opts.AllFaithful (opts.deliver completion rpc) ↔
        opts.Faithful ⟨completion, rpc.nretry, rpc.remoteSide, completion.outcome⟩ := by
      simp only [AllFaithful, reports_eq, mem_append, mem_cons]
      constructor
      · intro every
        exact every _ (.inr (.inl rfl))
      · rintro first made (old | rfl | new)
        · exact faithful made old
        · exact first
        · exact later_faithful made new
    rw [only_first, faithful_iff flying going]
    refine and_congr_left fun _ => ?_
    constructor
    · intro same nretry id_eq _ _ _
      exact same nretry id_eq
    · intro same nretry id_eq
      by_cases current : nretry = rpc.nretry
      · rw [current]
      · obtain ⟨unfinished, outcome_eq⟩ := success nretry id_eq current
        exact same nretry id_eq current unfinished outcome_eq

end Event

theorem setFailedCode_ne_zero (code : Int) : setFailedCode code ≠ 0 := by
  unfold setFailedCode
  split
  · decide
  · assumption

/-- An event that is delivered: the state it finds and what is required of it. -/
theorem step_spec (selects : opts.SelectsServers) (flying : opts.InFlight rpc) (event : RpcEvent) :
    opts.InFlight (opts.step rpc event) ∧
      (opts.AllFaithful rpc →
        (opts.AllFaithful (opts.step rpc event) ↔ opts.Admissible rpc event)) := by
  unfold step Admissible
  cases going : rpc.ended with
  | true => simpa using flying
  | false =>
    cases event with
    | response nretry code =>
      exact deliver_spec flying going _ selects (by simp [completion])
    | socketFailed nretry code =>
      exact deliver_spec flying going _ selects
        (by simp [completion, setFailedCode_ne_zero])
    | cancel =>
      exact deliver_spec flying going _ selects
        (by simp [completion, eCanceled, eBackupRequest])
    | timer timer =>
      have fired : opts.InFlight
          { rpc with timers := rpc.timers.erase timer, ended := false } :=
        ⟨fun _ => flying.remoteSide_eq going, fun _ => flying.errorCode_eq going, flying.nretry_le⟩
      by_cases set : timer ∈ rpc.timers
      case neg =>
        cases timer <;> simpa [set] using flying
      case pos =>
        simp only [Bool.false_eq_true, if_false, if_pos set]
        refine deliver_spec fired rfl _ selects ?_
        cases timer <;>
          simp [completion, eRpcTimedOut, eBackupRequest, set]

theorem callMethod_spec (selects : opts.SelectsServers) :
    opts.InFlight opts.callMethod ∧ opts.AllFaithful opts.callMethod := by
  obtain ⟨flying, later, reports_eq, faithful⟩ :=
    issueRPC_faithful (opts.onReturned opts.maxRetry)
      { nretry := 0, unfinished := none, errorCode := 0, remoteSide := noEndPoint,
        timers := opts.firstTimer, reports := [], ended := false }
      (fun _ _ same_call going server =>
        onReturned_returns selects (by rw [same_call]; exact Nat.zero_add _) going server)
      (Nat.zero_le _) rfl (fun _ => rfl)
  refine ⟨flying, ?_⟩
  intro made mem
  unfold callMethod at mem
  rw [reports_eq] at mem
  exact faithful made mem

/-- In a run in which `SelectServer` does not fail after it has selected a server, every report is
faithful, in every state, exactly when no backup request is sent and the call before one succeeds
only on the server of the backup request. -/
theorem everyState_allFaithful_iff (selects : opts.SelectsServers) (events : List RpcEvent) :
    Execution.EveryState opts.step opts.AllFaithful opts.callMethod events ↔
      Execution.EveryStep opts.step opts.Admissible opts.callMethod events := by
  refine everyState_iff_everyStep
    (fun rpc => opts.InFlight rpc ∧ opts.AllFaithful rpc) (callMethod_spec selects)
    (fun _ invariant => invariant.2) ?_ ?_
  · rintro rpc event ⟨flying, faithful⟩ admissible
    obtain ⟨after, iff_admissible⟩ := step_spec selects flying event
    exact ⟨after, (iff_admissible faithful).mpr admissible⟩
  · rintro rpc event - ⟨flying, faithful⟩ after_faithful
    exact ((step_spec selects flying event).2 faithful).mp after_faithful

/-- An RPC with a backup request timer whose calls go to two servers in turn. -/
def twoServers : RpcOptions where
  maxRetry := 3
  retryPolicy := none
  timeoutMs := 500
  backupRequestMs := 10
  timerAdd := 0
  issue nretry := .sent ⟨⟨10, 0, 0, if nretry % 2 = 0 then 1 else 2⟩, 8000⟩

theorem selectsServers_twoServers : twoServers.SelectsServers := by
  intro nretry unselected
  cases unselected

/-- The first connection breaks, and the retry succeeds. -/
theorem everyState_allFaithful_iff_retry :
    Execution.EveryState twoServers.step twoServers.AllFaithful twoServers.callMethod
      [.socketFailed 0 1009, .response 1 0] := by
  refine (everyState_allFaithful_iff selectsServers_twoServers _).mpr ?_
  simp only [everyStep_cons, everyStep_nil, and_true]
  refine ⟨fun _ => trivial, fun _ other => absurd rfl other⟩

/-- The backup request timer fires and a backup request goes to the second server; then the first
server responds.  The first server is reported to have failed while its call is pending, and its
success is reported for the second server. -/
theorem backupRequest_not_allFaithful :
    let rpc := [timer .backupRequest, .response 0 0].foldl twoServers.step
      twoServers.callMethod
    rpc.reports.map (fun made => (made.remoteSide, made.errorCode)) =
        [(⟨⟨10, 0, 0, 1⟩, 8000⟩, eBackupRequest), (⟨⟨10, 0, 0, 2⟩, 8000⟩, 0)] ∧
      ¬ Execution.EveryState twoServers.step twoServers.AllFaithful twoServers.callMethod
        [.timer .backupRequest, .response 0 0] := by
  refine ⟨by decide, ?_⟩
  intro every
  -- The report of the timer comes first: no call has come to its end.
  have pending := every.final _ mem_cons_self
  obtain ⟨nretry, completed, -⟩ := pending
  cases completed

end McBrpc.RpcOptions
