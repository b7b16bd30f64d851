import Mathlib.Algebra.Order.BigOperators.Group.List
import Mathlib.Algebra.Order.Ring.Int
import McBrpc.Butil.EndPoint

/-!
# The controller of an RPC

The client side of `brpc::Controller` on a load-balanced channel.  One RPC is made of numbered
calls: the first one, its retries and a backup request.  Every event ends in
`OnVersionedRPCReturned`, which reports to `LbStatReport`, ends the RPC or issues the next call.
-/

namespace McBrpc

open List

def eBackupRequest : Int := 1007

def eRpcTimedOut : Int := 1008

def eCanceled : Int := 125

/-- The error code that `SetFailed` stores. -/
def setFailedCode (errorCode : Int) : Int := if errorCode = 0 then -1 else errorCode

/-- The error codes of `RpcRetryPolicy::DoRetry`: EFAILEDSOCKET, EEOF, EHOSTDOWN, ELOGOFF,
ETIMEDOUT, ELIMIT, ENOENT, EPIPE, ECONNREFUSED, ECONNRESET, ENODATA, EOVERCROWDED and
EH2RUNOUTSTREAMS. -/
def retriedErrors : List Int :=
  [1009, 1014, 112, 2003, 110, 2004, 2, 32, 111, 104, 61, 1011, 1017]

/-- `RpcRetryPolicy::DoRetry`. -/
def rpcRetryPolicy (errorCode : Int) : Bool := errorCode ≠ 0 && retriedErrors.contains errorCode

/-- `EndPoint()`, the remote side before a server is selected. -/
def noEndPoint : EndPoint := ⟨⟨0, 0, 0, 0⟩, 0⟩

/-- What becomes of a call in `IssueRPC`. -/
inductive Issue where
  /-- `SelectServer` fails. -/
  | selectFailed (errorCode : Int)
  /-- A server is selected, but the request is not written to it. -/
  | sendFailed (server : EndPoint) (errorCode : Int)
  | sent (server : EndPoint)

def Issue.server : Issue → Option EndPoint
  | selectFailed _ => none
  | sendFailed server _ => some server
  | sent server => some server

/-- `CallId`: the correlation id of the RPC, or the id of the call with this number. -/
inductive CallId where
  | correlation
  | versioned (nretry : Nat)
  deriving DecidableEq

/-- `CompletionInfo`, with the error code that comes with it, 0 for a successful response. -/
structure Completion where
  id : CallId
  responded : Bool
  outcome : Int

/-- The arguments of one `LbStatReport`, with the completion it is made for and the number the
current call has then. -/
structure LbReport where
  completion : Completion
  nretry : Nat
  remoteSide : EndPoint
  errorCode : Int

inductive RpcTimer where
  | backupRequest
  | timeout
  deriving DecidableEq

/-- The members of a `Controller` that an RPC changes: `nretry` is the number of the current call,
`unfinished` that of the call a backup request was sent for. -/
structure Rpc where
  nretry : Nat
  unfinished : Option Nat
  errorCode : Int
  remoteSide : EndPoint
  timers : List RpcTimer
  reports : List LbReport
  ended : Bool

/-- What is fixed for an RPC: its settings, and what becomes of each of its calls. -/
structure RpcOptions where
  maxRetry : Nat
  retryPolicy : Option (Int → Bool)
  timeoutMs : Int
  backupRequestMs : Int
  /-- The result of `bthread_timer_add` when the timeout is set again. -/
  timerAdd : Int
  issue : Nat → Issue

namespace RpcOptions

variable (opts : RpcOptions)

def doRetry (errorCode : Int) : Bool := opts.retryPolicy.getD rpcRetryPolicy errorCode

/-- The report of `OnVersionedRPCReturned`. -/
def report (completion : Completion) (rpc : Rpc) : Rpc :=
  { rpc with
    reports := rpc.reports ++ [⟨completion, rpc.nretry, rpc.remoteSide, rpc.errorCode⟩] }

def endRPC (id : CallId) (rpc : Rpc) : Rpc :=
  let ending :=
    if id = .versioned rpc.nretry ∨ id = .correlation then some rpc.nretry else rpc.unfinished
  { rpc with
    remoteSide := (ending.bind fun nretry => (opts.issue nretry).server).getD rpc.remoteSide
    unfinished := none
    ended := true }

/-- The part of `OnVersionedRPCReturned` between the report and `IssueRPC`, with retries left: a
controller that goes on with the next call, or one for which the RPC ends. -/
def nextCall (rpc : Rpc) : Except Rpc Rpc :=
  if rpc.errorCode = 0 ∧ opts.retryPolicy.isNone then .error rpc
  else if rpc.errorCode = eBackupRequest then
    if 0 ≤ opts.timeoutMs ∧ opts.timerAdd ≠ 0 then
      .error { rpc with errorCode := setFailedCode opts.timerAdd }
    else
      .ok { rpc with
        timers := if 0 ≤ opts.timeoutMs then .timeout :: rpc.timers else rpc.timers
        unfinished := some rpc.nretry
        nretry := rpc.nretry + 1 }
  else if opts.doRetry rpc.errorCode then .ok { rpc with nretry := rpc.nretry + 1 }
  else .error rpc

/-- `IssueRPC`; `HandleSendFailed` is a return of the current call. -/
def issueRPC (returned : Completion → Rpc → Rpc) (rpc : Rpc) : Rpc :=
  match opts.issue rpc.nretry with
  | .selectFailed errorCode =>
    returned ⟨.versioned rpc.nretry, false, setFailedCode errorCode⟩
      { rpc with errorCode := setFailedCode errorCode }
  | .sendFailed server errorCode =>
    returned ⟨.versioned rpc.nretry, false, setFailedCode errorCode⟩
      { rpc with remoteSide := server, errorCode := setFailedCode errorCode }
  | .sent server => { rpc with remoteSide := server, errorCode := 0 }

/-- `OnVersionedRPCReturned` from the report on, by the number of retries that are left. -/
def onReturned : Nat → Completion → Rpc → Rpc
  | 0, completion, rpc => opts.endRPC completion.id (report completion rpc)
  | retries + 1, completion, rpc =>
    match opts.nextCall (report completion rpc) with
    | .error ending => opts.endRPC completion.id ending
    | .ok next => opts.issueRPC (onReturned retries) next

def onVersionedRPCReturned (completion : Completion) (savedError : Int) (rpc : Rpc) : Rpc :=
  let goOn := opts.onReturned (opts.maxRetry - rpc.nretry) completion rpc
  match completion.id with
  | .correlation => goOn
  | .versioned nretry =>
    if nretry = rpc.nretry then goOn
    else if rpc.unfinished = some nretry then
      if rpc.errorCode = 0 then goOn
      else { rpc with unfinished := none, errorCode := savedError }
    else { rpc with errorCode := savedError }

end RpcOptions

/-- What may happen to an RPC while its correlation id is not locked. -/
inductive RpcEvent where
  /-- A response to the call with this number. -/
  | response (nretry : Nat) (errorCode : Int)
  /-- The connection of the call with this number breaks. -/
  | socketFailed (nretry : Nat) (errorCode : Int)
  | timer (timer : RpcTimer)
  | cancel

def RpcEvent.completion : RpcEvent → Completion
  | response nretry errorCode => ⟨.versioned nretry, true, errorCode⟩
  | socketFailed nretry errorCode => ⟨.versioned nretry, false, setFailedCode errorCode⟩
  | timer .backupRequest => ⟨.correlation, false, eBackupRequest⟩
  | timer .timeout => ⟨.correlation, false, eRpcTimedOut⟩
  | cancel => ⟨.correlation, false, eCanceled⟩

namespace RpcOptions

variable (opts : RpcOptions)

/-- `HandleSocketFailed` and the response handlers: an error is set, then the RPC returns. -/
def deliver (completion : Completion) (rpc : Rpc) : Rpc :=
  opts.onVersionedRPCReturned completion rpc.errorCode
    (if completion.outcome = 0 then rpc else { rpc with errorCode := completion.outcome })

/-- A timer fires once, and an RPC that has ended has no id that could be locked. -/
def step (rpc : Rpc) (event : RpcEvent) : Rpc :=
  if rpc.ended then rpc
  else
    match event with
    | .timer timer =>
      if timer ∈ rpc.timers then
        opts.deliver event.completion { rpc with timers := rpc.timers.erase timer }
      else rpc
    | _ => opts.deliver event.completion rpc

/-- The timer that `CallMethod` sets. -/
def firstTimer : List RpcTimer :=
  if 0 ≤ opts.backupRequestMs ∧
      (opts.backupRequestMs < opts.timeoutMs ∨ opts.timeoutMs < 0) then [.backupRequest]
  else if 0 ≤ opts.timeoutMs then [.timeout]
  else []

/-- `CallMethod`, up to the first time the correlation id is unlocked. -/
def callMethod : Rpc :=
  opts.issueRPC (opts.onReturned opts.maxRetry)
    { nretry := 0, unfinished := none, errorCode := 0, remoteSide := noEndPoint,
      timers := opts.firstTimer, reports := [], ended := false }

end RpcOptions

def elapsedMs (beginTimeUs startRealtimeUs : Int) : Int :=
  (startRealtimeUs - beginTimeUs).tdiv 1000

/-- What `IssueRPC` makes of `_real_timeout_ms`. -/
def issueTimeout (beginTimeUs realTimeoutMs startRealtimeUs : Int) : Int :=
  if 0 < realTimeoutMs then realTimeoutMs - elapsedMs beginTimeUs startRealtimeUs
  else realTimeoutMs

theorem foldl_issueTimeout {begin timeoutMs : Int} {starts : List Int}
    (later : ∀ start ∈ starts, 0 ≤ elapsedMs begin start) :
    starts.foldl (issueTimeout begin) timeoutMs ≤ timeoutMs ∧
      timeoutMs - (starts.map (elapsedMs begin)).sum ≤
        starts.foldl (issueTimeout begin) timeoutMs ∧
      (0 < starts.foldl (issueTimeout begin) timeoutMs →
        starts.foldl (issueTimeout begin) timeoutMs =
          timeoutMs - (starts.map (elapsedMs begin)).sum) := by
  induction starts generalizing timeoutMs with
  | nil => simp
  | cons start starts ih =>
    have first := later start mem_cons_self
    have rest := @ih (issueTimeout begin timeoutMs start) fun other mem =>
      later other (mem_cons_of_mem _ mem)
    rw [foldl_cons, map_cons, sum_cons]
    by_cases pos : 0 < timeoutMs
    · have issued : issueTimeout begin timeoutMs start =
          timeoutMs - elapsedMs begin start := if_pos pos
      omega
    · have issued : issueTimeout begin timeoutMs start = timeoutMs := if_neg pos
      omega

/-- `_timeout_ms` and `_real_timeout_ms`. -/
structure RpcTimeouts where
  timeoutMs : Int
  realTimeoutMs : Int

namespace RpcTimeouts

def unsetMagicNum : Int := -123456789

/-- The timeouts of a controller after `ResetPods`. -/
def unset : RpcTimeouts := ⟨unsetMagicNum, unsetMagicNum⟩

/-- `set_timeout_ms`, which leaves `_real_timeout_ms` when it cuts a timeout. -/
def setTimeoutMs (timeouts : RpcTimeouts) (timeoutMs : Int) : RpcTimeouts :=
  if timeoutMs ≤ 0x7fffffff then ⟨timeoutMs, timeoutMs⟩
  else { timeouts with timeoutMs := 0x7fffffff }

def issueRpc (beginTimeUs : Int) (timeouts : RpcTimeouts) (startRealtimeUs : Int) : RpcTimeouts :=
  { timeouts with
    realTimeoutMs := issueTimeout beginTimeUs timeouts.realTimeoutMs startRealtimeUs }

theorem foldl_issueRpc (beginTimeUs : Int) (timeouts : RpcTimeouts) (starts : List Int) :
    (starts.foldl (issueRpc beginTimeUs) timeouts).realTimeoutMs =
      starts.foldl (issueTimeout beginTimeUs) timeouts.realTimeoutMs := by
  induction starts generalizing timeouts with
  | nil => rfl
  | cons start starts ih => exact ih (issueRpc beginTimeUs timeouts start)

end RpcTimeouts

/-- What is left of the timeout after an issue is right exactly if the timeout was not cut and all
issues before came within the first millisecond. -/
theorem realTimeoutMs_eq_iff (timeoutMs beginTimeUs last : Int) (starts : List Int)
    (times : (beginTimeUs :: (starts ++ [last])).Pairwise (· ≤ ·))
    (left : 0 < timeoutMs - elapsedMs beginTimeUs last) :
    ((starts ++ [last]).foldl (RpcTimeouts.issueRpc beginTimeUs)
          (RpcTimeouts.unset.setTimeoutMs timeoutMs)).realTimeoutMs =
        timeoutMs - elapsedMs beginTimeUs last ↔
      timeoutMs ≤ 0x7fffffff ∧ ∀ start ∈ starts, elapsedMs beginTimeUs start = 0 := by
  have later : ∀ start ∈ starts ++ [last], 0 ≤ elapsedMs beginTimeUs start := by
    intro start member
    have := rel_of_pairwise_cons times member
    exact Int.tdiv_nonneg (by omega) (by decide)
  rw [RpcTimeouts.foldl_issueRpc, RpcTimeouts.setTimeoutMs]
  split_ifs with fits
  · obtain ⟨-, least, taken⟩ := @foldl_issueTimeout beginTimeUs timeoutMs (starts ++ [last]) later
    rw [map_append, sum_append, map_singleton, sum_singleton] at least taken
    rw [and_iff_right fits]
    dsimp only
    constructor
    · intro right start member
      refine all_zero_of_le_zero_le_of_sum_eq_zero (l := starts.map (elapsedMs beginTimeUs))
        ?_ (by omega) (mem_map_of_mem member)
      simpa using fun other among => later other (mem_append_left _ among)
    · intro zero
      have none : (starts.map (elapsedMs beginTimeUs)).sum = 0 :=
        sum_eq_zero (by simpa using zero)
      omega
  · obtain ⟨most, -⟩ :=
      @foldl_issueTimeout beginTimeUs RpcTimeouts.unsetMagicNum (starts ++ [last]) later
    simp only [fits, false_and, iff_false]
    simp only [RpcTimeouts.unset, RpcTimeouts.unsetMagicNum] at most ⊢
    omega

/-- Of a timeout of one second 800 ms are left at a retry after 200 ms. -/
theorem realTimeoutMs_eq_iff_retry :
    ([0, 200000].foldl (RpcTimeouts.issueRpc 0)
      (RpcTimeouts.unset.setTimeoutMs 1000)).realTimeoutMs = 1000 - elapsedMs 0 200000 :=
  (realTimeoutMs_eq_iff 1000 0 200000 [0] (by decide) (by decide)).2 (by decide)

/-- Of a timeout of one second 400 ms are left, and not 600, at a second retry after 400 ms. -/
theorem not_realTimeoutMs_retries :
    ([0, 200000, 400000].foldl (RpcTimeouts.issueRpc 0)
      (RpcTimeouts.unset.setTimeoutMs 1000)).realTimeoutMs = 400 ∧
    1000 - elapsedMs 0 400000 = 600 := by
  decide

end McBrpc
