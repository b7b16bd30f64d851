import Mathlib.Data.List.Perm.Subperm
import Mathlib.Data.List.Nodup
import McBrpc.Library.Execution

/-!
# The connection pool

`DBPool` hands out idle connections, makes a new one when there is none and fewer than `max_active`
are in use, and lets the caller wait otherwise.  Every step of a thread that holds the mutex is one
action.
-/

namespace McBrpc

open List Nat

structure DbConfig where
  user : String
  passwd : String
  ip : String
  port : UInt32
  dbName : String
  maxActive : UInt32
  minIdle : UInt32
  ildeTimeoutMs : UInt32
  timeoutMs : UInt32
  refreshIntervalMs : UInt32

/-- A connection object, numbered in the order of allocation, with its last use in nanoseconds. -/
structure MysqlConn where
  object : Nat
  freeTime : Int
  deriving DecidableEq

namespace MysqlConn

def refreshFreeTime (conn : MysqlConn) (now : Int) : MysqlConn := { conn with freeTime := now }

def getFreeTime (conn : MysqlConn) (now : Int) : Int := (now - conn.freeTime).tdiv 1000000

end MysqlConn

/-- A `GetConnection` call inside `wait_for`. -/
structure PoolWaiter where
  timeoutUs : Int
  startUs : Int

/-- A pool, with the connections whose `shared_ptr` is alive, the waiting callers and the number of
connection objects allocated so far. -/
structure DBPool where
  dbConf : DbConfig
  curActive : UInt32
  connQue : List MysqlConn
  checkedOut : List MysqlConn
  waiters : List PoolWaiter
  allocated : Nat

/-- What an action yields: a call goes on waiting, a call returns, or nothing. -/
inductive PoolOutcome where
  | waiting
  | returned (conn : Option MysqlConn)
  | done

/-- The actions, with the clocks they read and the outcomes of `connect`, `wait_for` and
`refresh`. -/
inductive PoolAction where
  | getConnection (nowUs now : Int) (connected : Bool)
  | wake (waiter : Nat) (nowUs : Int) (timedOut : Bool)
  | release (holder : Nat) (now : Int)
  | recycleConnection (clock : Nat → Int) (refreshed : Bool)

namespace DBPool

/-- `CheckDbConfigs`; without an address the process exits. -/
def checkDbConfigs (conf : DbConfig) : Option DbConfig :=
  if conf.ip = "" ∨ conf.port = 0 ∨ conf.dbName = "" ∨ conf.user = "" then none
  else some { conf with
    maxActive := if conf.maxActive = 0 then 30 else conf.maxActive
    minIdle := if conf.minIdle = 0 then 1 else conf.minIdle
    ildeTimeoutMs := if conf.ildeTimeoutMs = 0 then 1800 * 1000 else conf.ildeTimeoutMs
    timeoutMs := if conf.timeoutMs = 0 then 1500 else conf.timeoutMs
    refreshIntervalMs :=
      if conf.refreshIntervalMs = 0 then 3600 * 1000 else conf.refreshIntervalMs }

def create (conf : DbConfig) : Option DBPool :=
  (checkDbConfigs conf).map fun checked => ⟨checked, 0, [], [], [], 0⟩

/-- `AddConnect`; a connection object that cannot connect is not released. -/
def addConnect (now : Int) (connected : Bool) (pool : DBPool) : Bool × DBPool :=
  let conn : MysqlConn := ⟨pool.allocated, 0⟩
  let pool := { pool with allocated := pool.allocated + 1 }
  if connected then
    (true, { pool with connQue := pool.connQue ++ [conn.refreshFreeTime now] })
  else (false, pool)

/-- The end of `GetConnection`, which takes the head of the queue; the queue is not empty here. -/
def handOut (pool : DBPool) : PoolOutcome × DBPool :=
  match pool.connQue with
  | [] => (.returned none, pool)
  | conn :: connQue =>
    (.returned (some conn), { pool with
        connQue := connQue
        checkedOut := conn :: pool.checkedOut
        curActive := pool.curActive + 1 })

/-- `GetConnection` up to its return or its first `wait_for`. -/
def getConnection (nowUs now : Int) (connected : Bool) (pool : DBPool) : PoolOutcome × DBPool :=
  if pool.connQue = [] then
    if pool.curActive ≥ pool.dbConf.maxActive then
      let timeoutUs : Int := (pool.dbConf.timeoutMs * 1000).toNat
      (.waiting, { pool with waiters := pool.waiters ++ [⟨timeoutUs, nowUs⟩] })
    else
      match addConnect now connected pool with
      | (false, pool) => (.returned none, pool)
      | (true, pool) => handOut pool
  else handOut pool

/-- The return of a `wait_for` of `GetConnection`, up to the next one or to the return. -/
def wake (waiter : Nat) (nowUs : Int) (timedOut : Bool) (pool : DBPool) : PoolOutcome × DBPool :=
  match pool.waiters[waiter]? with
  | none => (.done, pool)
  | some call =>
    if timedOut then (.returned none, { pool with waiters := pool.waiters.eraseIdx waiter })
    else
      let timeoutUs := call.timeoutUs - (nowUs - call.startUs)
      if pool.connQue = [] then
        (.waiting, { pool with waiters := pool.waiters.set waiter ⟨timeoutUs, call.startUs⟩ })
      else handOut { pool with waiters := pool.waiters.eraseIdx waiter }

/-- The deleter of the `shared_ptr`. -/
def release (holder : Nat) (now : Int) (pool : DBPool) : DBPool :=
  match pool.checkedOut[holder]? with
  | none => pool
  | some conn =>
    { pool with
      connQue := pool.connQue ++ [conn.refreshFreeTime now]
      checkedOut := pool.checkedOut.eraseIdx holder
      curActive := pool.curActive - 1 }

/-- The loop of `RecycleConnection`, which reads the clock once a round. -/
def dropExpired (conf : DbConfig) (clock : Nat → Int) (round : Nat) :
    List MysqlConn → List MysqlConn
  | [] => []
  | conn :: connQue =>
    if (conn :: connQue).length > conf.minIdle.toNat then
      if conn.getFreeTime (clock round) ≥ conf.ildeTimeoutMs.toNat then
        dropExpired conf clock (round + 1) connQue
      else conn :: connQue
    else conn :: connQue

/-- One pass of `RecycleConnection`. -/
def recycleConnection (clock : Nat → Int) (refreshed : Bool) (pool : DBPool) : DBPool :=
  if pool.connQue.length > pool.dbConf.minIdle.toNat then
    { pool with connQue := dropExpired pool.dbConf clock 0 pool.connQue }
  else
    match pool.connQue with
    | [] => pool
    | conn :: connQue =>
      if conn.getFreeTime (clock 0) > pool.dbConf.refreshIntervalMs.toNat then
        if refreshed then { pool with connQue := connQue ++ [conn.refreshFreeTime (clock 1)] }
        else { pool with connQue := connQue }
      else pool

/-- One action of a thread that holds the mutex. -/
def act (pool : DBPool) : PoolAction → PoolOutcome × DBPool
  | .getConnection nowUs now connected => pool.getConnection nowUs now connected
  | .wake waiter nowUs timedOut => pool.wake waiter nowUs timedOut
  | .release holder now => (.done, pool.release holder now)
  | .recycleConnection clock refreshed => (.done, pool.recycleConnection clock refreshed)

def step (pool : DBPool) (action : PoolAction) : DBPool := (pool.act action).2

/-- The objects of the idle connections and of those in use. -/
def objects (pool : DBPool) : List Nat :=
  pool.connQue.map MysqlConn.object ++ pool.checkedOut.map MysqlConn.object

/-- The connections in use are counted, no connection is idle and in use or idle twice, and there
are no more than `max_active` of them. -/
structure Consistent (pool : DBPool) : Prop where
  active : pool.curActive.toNat = pool.checkedOut.length
  distinct : pool.objects.Nodup
  bounded : pool.curActive.toNat + pool.connQue.length ≤ pool.dbConf.maxActive.toNat

/-- An action of a call that goes on waiting or returns `nullptr` changes neither the queue nor the
counter. -/
def NullUnchanged (pool : DBPool) : PoolOutcome × DBPool → Prop
  | (.waiting, after) => after.connQue = pool.connQue ∧ after.curActive = pool.curActive
  | (.returned none, after) => after.connQue = pool.connQue ∧ after.curActive = pool.curActive
  | _ => True

/-- What an action can do to the connections. -/
inductive Moves (pool after : DBPool) : Prop
  | keep (connQue_eq : after.connQue = pool.connQue)
      (checkedOut_eq : after.checkedOut = pool.checkedOut)
      (active_eq : after.curActive = pool.curActive)
  | take (conn : MysqlConn) (connQue_eq : pool.connQue = conn :: after.connQue)
      (checkedOut_eq : after.checkedOut = conn :: pool.checkedOut)
      (active_eq : after.curActive = pool.curActive + 1)
  | make (conn : MysqlConn) (empty : pool.connQue = []) (connQue_eq : after.connQue = [])
      (room : pool.curActive < pool.dbConf.maxActive) (new : conn.object = pool.allocated)
      (allocated_eq : after.allocated = pool.allocated + 1)
      (checkedOut_eq : after.checkedOut = conn :: pool.checkedOut)
      (active_eq : after.curActive = pool.curActive + 1)
  | giveBack (conn : MysqlConn) (now : Int)
      (checkedOut_perm : pool.checkedOut.Perm (conn :: after.checkedOut))
      (connQue_eq : after.connQue = pool.connQue ++ [conn.refreshFreeTime now])
      (active_eq : after.curActive = pool.curActive - 1)
  | trim (connQue_sub : (after.connQue.map MysqlConn.object).Subperm
        (pool.connQue.map MysqlConn.object))
      (checkedOut_eq : after.checkedOut = pool.checkedOut)
      (active_eq : after.curActive = pool.curActive)

/-- A consistent pool whose connections have been allocated. -/
structure Sound (pool : DBPool) : Prop extends Consistent pool where
  allocated : ∀ object ∈ pool.objects, object < pool.allocated

section

variable {pool after : DBPool}

theorem Sound.of_subperm (sound : Sound pool) (subperm : after.objects.Subperm pool.objects)
    (allocated_le : pool.allocated ≤ after.allocated)
    (active : after.curActive.toNat = after.checkedOut.length)
    (bounded : after.curActive.toNat + after.connQue.length ≤ after.dbConf.maxActive.toNat) :
    Sound after where
  active := active
  distinct := by
    obtain ⟨kept, perm, sublist⟩ := subperm
    exact perm.nodup_iff.mp (sublist.nodup sound.distinct)
  bounded := bounded
  allocated object object_mem :=
    (sound.allocated object (subperm.subset object_mem)).trans_le allocated_le

variable {conn : MysqlConn}

section

variable (sound : Sound pool)
include sound

theorem Sound.take (connQue_eq : pool.connQue = conn :: after.connQue)
    (checkedOut_eq : after.checkedOut = conn :: pool.checkedOut)
    (active_eq : after.curActive = pool.curActive + 1) (conf_eq : after.dbConf = pool.dbConf)
    (allocated_le : pool.allocated ≤ after.allocated) : Sound after := by
  have active := sound.active
  have bounded := sound.bounded
  have limit := pool.dbConf.maxActive.toNat_lt
  have length_eq : pool.connQue.length = after.connQue.length + 1 := by rw [connQue_eq]; rfl
  have active_eq' : after.curActive.toNat = pool.curActive.toNat + 1 := by
    rw [active_eq, UInt32.toNat_add]
    exact mod_eq_of_lt (by simp; omega)
  refine sound.of_subperm ?_ allocated_le ?_ ?_
  · rw [objects, objects, connQue_eq, checkedOut_eq]
    exact perm_middle.subperm
  · rw [active_eq', active, checkedOut_eq]
    rfl
  · rw [conf_eq]
    omega

theorem Sound.make (empty : pool.connQue = [])
    (connQue_eq : after.connQue = []) (room : pool.curActive < pool.dbConf.maxActive)
    (new : conn.object = pool.allocated) (allocated_eq : after.allocated = pool.allocated + 1)
    (checkedOut_eq : after.checkedOut = conn :: pool.checkedOut)
    (active_eq : after.curActive = pool.curActive + 1) (conf_eq : after.dbConf = pool.dbConf) :
    Sound after := by
  have active := sound.active
  have limit := pool.dbConf.maxActive.toNat_lt
  have less := UInt32.lt_iff_toNat_lt.mp room
  have active_eq' : after.curActive.toNat = pool.curActive.toNat + 1 := by
    rw [active_eq, UInt32.toNat_add]
    exact mod_eq_of_lt (by simp; omega)
  have objects_eq : after.objects = pool.allocated :: pool.objects := by
    rw [objects, objects, connQue_eq, empty, checkedOut_eq, ← new]
    rfl
  refine ⟨⟨?_, ?_, ?_⟩, ?_⟩
  · rw [active_eq', active, checkedOut_eq]
    rfl
  · rw [objects_eq, nodup_cons]
    exact ⟨fun old => (sound.allocated _ old).false, sound.distinct⟩
  · rw [conf_eq, connQue_eq, active_eq']
    exact less
  · rw [objects_eq, allocated_eq, forall_mem_cons]
    exact ⟨lt_succ_self _, fun object old => lt_succ_of_lt (sound.allocated object old)⟩

theorem Sound.giveBack {now : Int}
    (checkedOut_perm : pool.checkedOut.Perm (conn :: after.checkedOut))
    (connQue_eq : after.connQue = pool.connQue ++ [conn.refreshFreeTime now])
    (active_eq : after.curActive = pool.curActive - 1) (conf_eq : after.dbConf = pool.dbConf)
    (allocated_le : pool.allocated ≤ after.allocated) : Sound after := by
  have active := sound.active
  have bounded := sound.bounded
  have length_eq : pool.checkedOut.length = after.checkedOut.length + 1 :=
    checkedOut_perm.length_eq
  have queue : after.connQue.length = pool.connQue.length + 1 := by simp [connQue_eq]
  have active_eq' : after.curActive.toNat = pool.curActive.toNat - 1 := by
    rw [active_eq, UInt32.toNat_sub_of_le]
    · rfl
    · exact UInt32.le_iff_toNat_le.mpr (by simp; omega)
  refine sound.of_subperm ?_ allocated_le (by omega) (by rw [conf_eq]; omega)
  rw [objects, objects, connQue_eq, map_append, append_assoc]
  exact ((checkedOut_perm.map MysqlConn.object).symm.append_left _).subperm

theorem Sound.moves (conf_eq : after.dbConf = pool.dbConf)
    (allocated_le : pool.allocated ≤ after.allocated) (moves : Moves pool after) : Sound after := by
  cases moves with
  | keep connQue_eq checkedOut_eq active_eq =>
    refine sound.of_subperm ?_ allocated_le ?_ ?_
    · rw [objects, objects, connQue_eq, checkedOut_eq]
    · rw [active_eq, checkedOut_eq, sound.active]
    · rw [active_eq, connQue_eq, conf_eq]
      exact sound.bounded
  | take conn connQue_eq checkedOut_eq active_eq =>
    exact sound.take connQue_eq checkedOut_eq active_eq conf_eq allocated_le
  | make conn empty connQue_eq room new allocated_eq checkedOut_eq active_eq =>
    exact sound.make empty connQue_eq room new allocated_eq checkedOut_eq active_eq conf_eq
  | giveBack conn now checkedOut_perm connQue_eq active_eq =>
    exact sound.giveBack checkedOut_perm connQue_eq active_eq conf_eq allocated_le
  | trim connQue_sub checkedOut_eq active_eq =>
    have shorter := connQue_sub.length_le
    rw [length_map, length_map] at shorter
    refine sound.of_subperm ?_ allocated_le ?_ ?_
    · rw [objects, objects, checkedOut_eq]
      exact (subperm_append_right _).mpr connQue_sub
    · rw [active_eq, checkedOut_eq, sound.active]
    · rw [active_eq, conf_eq]
      exact (Nat.add_le_add_left shorter _).trans sound.bounded

end

/-- The result of an action: what it does to the connections, and that `nullptr` costs nothing. -/
structure Follows (pool : DBPool) (result : PoolOutcome × DBPool) : Prop where
  conf_eq : result.2.dbConf = pool.dbConf
  allocated_le : pool.allocated ≤ result.2.allocated
  moves : Moves pool result.2
  unchanged : NullUnchanged pool result

theorem follows_waiters (waiters : List PoolWaiter) {out : PoolOutcome} :
    Follows pool (out, { pool with waiters := waiters }) where
  conf_eq := rfl
  allocated_le := le_refl _
  moves := .keep rfl rfl rfl
  unchanged := by
    cases out with
    | waiting => exact ⟨rfl, rfl⟩
    | returned conn =>
      cases conn with
      | none => exact ⟨rfl, rfl⟩
      | some conn => trivial
    | done => trivial

theorem follows_handOut (waiters : List PoolWaiter) (ne : pool.connQue ≠ []) :
    Follows pool (handOut { pool with waiters := waiters }) := by
  obtain ⟨conn, connQue, connQue_eq⟩ := exists_cons_of_ne_nil ne
  rw [handOut, connQue_eq]
  exact ⟨rfl, le_refl _, .take conn connQue_eq rfl rfl, trivial⟩

theorem follows_getConnection (nowUs now : Int) (connected : Bool) :
    Follows pool (pool.getConnection nowUs now connected) := by
  rw [getConnection]
  split
  · next empty =>
    split
    · exact follows_waiters _
    · next less =>
      have room := UInt32.not_le.mp less
      cases connected with
      | false => exact ⟨rfl, le_succ _, .keep rfl rfl rfl, rfl, rfl⟩
      | true =>
        simp only [addConnect, if_true, handOut, empty, nil_append]
        exact ⟨rfl, le_succ _, .make _ empty rfl room rfl rfl rfl rfl, trivial⟩
  · next ne => exact follows_handOut pool.waiters ne

theorem follows_wake (waiter : Nat) (nowUs : Int) (timedOut : Bool) :
    Follows pool (pool.wake waiter nowUs timedOut) := by
  rw [wake]
  split
  · exact follows_waiters pool.waiters
  · split
    · exact follows_waiters _
    · simp only
      split
      · exact follows_waiters _
      · next ne => exact follows_handOut _ ne

theorem follows_release (holder : Nat) (now : Int) :
    Follows pool (.done, pool.release holder now) := by
  rw [release]
  split
  · exact follows_waiters pool.waiters
  · next conn found =>
    obtain ⟨inside, rfl⟩ := List.getElem?_eq_some_iff.mp found
    have perm := (getElem_cons_eraseIdx_perm inside).symm
    exact ⟨rfl, le_refl _, .giveBack _ now perm rfl rfl, trivial⟩

theorem dropExpired_sublist (conf : DbConfig) (clock : Nat → Int) (round : Nat)
    (connQue : List MysqlConn) : (dropExpired conf clock round connQue).Sublist connQue := by
  induction connQue generalizing round with
  | nil => exact List.Sublist.refl _
  | cons conn connQue ih =>
    rw [dropExpired]
    split
    · split
      · exact (ih (round + 1)).cons conn
      · exact List.Sublist.refl _
    · exact List.Sublist.refl _

theorem recycleConnection_eq (clock : Nat → Int) (refreshed : Bool) :
    ∃ connQue, pool.recycleConnection clock refreshed = { pool with connQue := connQue } ∧
      (connQue.map MysqlConn.object).Subperm (pool.connQue.map MysqlConn.object) := by
  rw [recycleConnection]
  split
  · exact ⟨_, rfl, ((dropExpired_sublist _ _ _ _).map _).subperm⟩
  · split
    · exact ⟨_, rfl, List.Subperm.refl _⟩
    · next conn connQue queue =>
      rw [queue]
      split
      · split
        · refine ⟨_, rfl, ?_⟩
          rw [map_append]
          exact (perm_append_singleton _ _).subperm
        · exact ⟨_, rfl, ((sublist_cons_self conn connQue).map _).subperm⟩
      · exact ⟨conn :: connQue, by rw [← queue], List.Subperm.refl _⟩

theorem follows_act (action : PoolAction) : Follows pool (pool.act action) := by
  cases action with
  | getConnection nowUs now connected => exact follows_getConnection nowUs now connected
  | wake waiter nowUs timedOut => exact follows_wake waiter nowUs timedOut
  | release holder now => exact follows_release holder now
  | recycleConnection clock refreshed =>
    obtain ⟨connQue, recycled, subperm⟩ := recycleConnection_eq clock refreshed
    rw [act, recycled]
    exact ⟨rfl, le_refl _, .trim subperm rfl rfl, trivial⟩

theorem Sound.step (sound : Sound pool) (action : PoolAction) : Sound (pool.step action) :=
  have follows := follows_act action
  sound.moves follows.conf_eq follows.allocated_le follows.moves

theorem sound_create {conf : DbConfig} (made : create conf = some pool) : Sound pool := by
  obtain ⟨checked, -, rfl⟩ := Option.map_eq_some_iff.mp made
  exact ⟨⟨rfl, nodup_nil, zero_le _⟩, by simp [objects]⟩

/-- Every state of a pool is consistent, and no call that returns `nullptr` changes the queue or the
number of active connections. -/
theorem everyState_consistent {conf : DbConfig} (created : create conf = some pool)
    (actions : List PoolAction) :
    Execution.EveryState step Consistent pool actions ∧
      Execution.EveryStep step (fun pool action => NullUnchanged pool (pool.act action)) pool
        actions := by
  constructor
  · intro history _
    have sound := Execution.foldl_invariant Sound history (sound_create created)
      fun _ action _ sound => sound.step action
    exact sound.toConsistent
  · intro history action _
    exact (follows_act action).unchanged

end

/-- A configuration with the defaults and one connection. -/
def singleConf : DbConfig := ⟨"mc", "", "10.0.0.1", 3306, "test", 1, 0, 0, 0, 0⟩

/-- A second caller waits until its time is over, while the first one holds the connection. -/
theorem everyState_consistent_singleConf : ∃ pool, create singleConf = some pool ∧
      Execution.EveryState step Consistent pool
        [.getConnection 0 0 true, .getConnection 1 1 true, .wake 0 1500001 true, .release 0 2] := by
  obtain ⟨pool, created⟩ : ∃ pool, create singleConf = some pool := ⟨_, rfl⟩
  exact ⟨pool, created, (everyState_consistent created _).1⟩

def firstCall (conf : DbConfig) (startUs : Int) : PoolWaiter :=
  ⟨(conf.timeoutMs * 1000).toNat, startUs⟩

/-- A call that goes on waiting after a wake-up. -/
def rewait (call : PoolWaiter) (nowUs : Int) : PoolWaiter :=
  ⟨call.timeoutUs - (nowUs - call.startUs), call.startUs⟩

/-- The waits of a call, with the time at which each begins: the first one, and one for every
wake-up that finds no connection. -/
def waits (call : PoolWaiter) (nowUs : Int) : List Int → List (Int × Int)
  | [] => [(nowUs, call.timeoutUs)]
  | next :: wakes => (nowUs, call.timeoutUs) :: waits (rewait call next) next wakes

def IsRest (budget startUs : Int) (wait : Int × Int) : Prop :=
  wait.2 = budget - (wait.1 - startUs)

theorem isRest_waits_iff (budget : Int) (call : PoolWaiter) (nowUs : Int) (wakes : List Int) :
    (∀ wait ∈ waits call nowUs wakes, IsRest budget call.startUs wait) ↔
      IsRest budget call.startUs (nowUs, call.timeoutUs) ∧
        ∀ time ∈ (nowUs :: wakes).dropLast, time = call.startUs := by
  induction wakes generalizing call nowUs with
  | nil => simp [waits]
  | cons next wakes ih =>
    have later : (∀ wait ∈ waits (rewait call next) next wakes, IsRest budget call.startUs wait) ↔
          IsRest budget call.startUs (next, (rewait call next).timeoutUs) ∧
            ∀ time ∈ (next :: wakes).dropLast, time = call.startUs := ih (rewait call next) next
    rw [waits, forall_mem_cons, later, dropLast_cons_of_ne_nil (cons_ne_nil _ _), forall_mem_cons]
    -- What a wake-up subtracts is counted from the start, so the time before it counts twice.
    have again : IsRest budget call.startUs (nowUs, call.timeoutUs) →
        (IsRest budget call.startUs (next, (rewait call next).timeoutUs) ↔
          nowUs = call.startUs) := by
      intro rest
      simp only [IsRest, rewait] at rest ⊢
      omega
    constructor
    · rintro ⟨rest, rest', times⟩
      exact ⟨rest, (again rest).mp rest', times⟩
    · rintro ⟨rest, now_eq, times⟩
      exact ⟨rest, (again rest).mpr now_eq, times⟩

theorem getConnection_of_busy {pool : DBPool} (empty : pool.connQue = [])
    (busy : pool.dbConf.maxActive ≤ pool.curActive) (nowUs now : Int) (connected : Bool) :
    pool.getConnection nowUs now connected =
      (.waiting, { pool with waiters := pool.waiters ++ [firstCall pool.dbConf nowUs] }) := by
  rw [getConnection, if_pos empty, if_pos busy]
  rfl

section

variable {pool : DBPool} {index : Nat} {call : PoolWaiter}

theorem wake_of_empty (waiting : pool.waiters[index]? = some call) (empty : pool.connQue = [])
    (nowUs : Int) : pool.wake index nowUs false =
      (.waiting, { pool with waiters := pool.waiters.set index (rewait call nowUs) }) := by
  rw [wake, waiting]
  simp only [Bool.false_eq_true, if_false, if_pos empty]
  rfl

/-- A waiting call returns `nullptr` exactly when `wait_for` reports a timeout. -/
theorem wake_null_iff (waiting : pool.waiters[index]? = some call) (nowUs : Int)
    (timedOut : Bool) : (pool.wake index nowUs timedOut).1 = .returned none ↔ timedOut = true := by
  rw [wake, waiting]
  cases timedOut with
  | true => simp
  | false =>
    cases queue : pool.connQue with
    | nil | cons => simp [handOut]

theorem wake_returns (waiting : pool.waiters[index]? = some call) {nowUs : Int} {timedOut : Bool}
    (stops : ¬ (timedOut = false ∧ pool.connQue = [])) :
    ∃ conn after, pool.wake index nowUs timedOut = (.returned conn, after) := by
  rw [wake, waiting]
  cases timedOut with
  | true => exact ⟨_, _, rfl⟩
  | false =>
    cases queue : pool.connQue with
    | nil => exact absurd ⟨rfl, queue⟩ stops
    | cons conn connQue => exact ⟨_, _, rfl⟩

/-- The place of a waiting call after the wake-up of another one. -/
def placeAfter (index waiter : Nat) : PoolOutcome → Nat
  | .returned _ => if waiter < index then index - 1 else index
  | _ => index

theorem waiters_wake_of_ne (waiting : pool.waiters[index]? = some call) {waiter : Nat}
    (other : waiter ≠ index) (nowUs : Int) (timedOut : Bool) :
    (pool.wake waiter nowUs timedOut).2.waiters[
      placeAfter index waiter (pool.wake waiter nowUs timedOut).1]? = some call := by
  have erased : (pool.waiters.eraseIdx waiter)[
      if waiter < index then index - 1 else index]? = some call := by
    rw [getElem?_eraseIdx]
    grind
  rw [wake]
  split
  · exact waiting
  · split
    · exact erased
    · dsimp only
      split
      · exact (getElem?_set_ne other).trans waiting
      · rw [handOut]
        split
        · exact erased
        · exact erased

/-- The wait of the call at `index` of the waiting ones that begins at a time. -/
def waitAt (pool : DBPool) (index : Nat) (nowUs : Int) : List (Int × Int) :=
  pool.waiters[index]?.toList.map fun call => (nowUs, call.timeoutUs)

/-- The waits that the call at `index` begins in a run, each with the time of the wake-up before
it. -/
def laterWaits (pool : DBPool) (index : Nat) : List PoolAction → List (Int × Int)
  | [] => []
  | .wake waiter nowUs timedOut :: actions =>
    let (out, after) := pool.wake waiter nowUs timedOut
    if waiter ≠ index then laterWaits after (placeAfter index waiter out) actions
    else
      match out with
      | .waiting => after.waitAt index nowUs ++ laterWaits after index actions
      | _ => []
  | action :: actions => laterWaits (pool.step action) index actions

/-- The times that a call passes to `wait_for` in the run after its start, each with the time at
which the wait begins. -/
def callWaits (pool : DBPool) (startUs now : Int) (connected : Bool)
    (actions : List PoolAction) : List (Int × Int) :=
  match pool.getConnection startUs now connected with
  | (.waiting, after) =>
    after.waitAt pool.waiters.length startUs ++ after.laterWaits pool.waiters.length actions
  | _ => []

theorem waitAt_of_waiting (waiting : pool.waiters[index]? = some call) (nowUs : Int) :
    pool.waitAt index nowUs = [(nowUs, call.timeoutUs)] := by
  rw [waitAt, waiting]
  rfl

theorem waiters_getConnection (waiting : pool.waiters[index]? = some call) (nowUs now : Int)
    (connected : Bool) :
    (pool.getConnection nowUs now connected).2.waiters[index]? = some call := by
  have inside := (List.getElem?_eq_some_iff.mp waiting).1
  rw [getConnection]
  split
  · split
    · exact (getElem?_append_left inside).trans waiting
    · cases connected with
      | false => exact waiting
      | true =>
        simp only [addConnect, if_true, handOut]
        split
        · exact waiting
        · exact waiting
  · rw [handOut]
    split
    · exact waiting
    · exact waiting

theorem laterWaits_eq (waiting : pool.waiters[index]? = some call) (nowUs : Int)
    (actions : List PoolAction) :
    (nowUs, call.timeoutUs) :: pool.laterWaits index actions =
      waits call nowUs ((pool.laterWaits index actions).map Prod.fst) := by
  induction actions generalizing pool index call nowUs with
  | nil => rfl
  | cons action actions ih =>
    cases action with
    | getConnection startUs now connected =>
      exact ih (waiters_getConnection waiting startUs now connected) nowUs
    | release holder now =>
      refine @ih (pool.release holder now) index call ?_ nowUs
      rw [release]
      split
      · exact waiting
      · exact waiting
    | recycleConnection clock refreshed =>
      refine @ih (pool.recycleConnection clock refreshed) index call ?_ nowUs
      obtain ⟨connQue, recycled, -⟩ := @recycleConnection_eq pool clock refreshed
      rw [recycled]
      exact waiting
    | wake waiter timeUs timedOut =>
      rw [laterWaits]
      by_cases other : waiter = index
      · subst other
        by_cases goesOn : timedOut = false ∧ pool.connQue = []
        · obtain ⟨rfl, empty⟩ := goesOn
          have again : (pool.waiters.set waiter (rewait call timeUs))[waiter]? =
              some (rewait call timeUs) :=
            getElem?_set_self (List.getElem?_eq_some_iff.mp waiting).1
          rw [wake_of_empty waiting empty]
          simp only [ne_eq, not_true_eq_false, if_false]
          rw [waitAt_of_waiting again, singleton_append, map_cons, waits, ih again timeUs]
        · obtain ⟨conn, after, returned⟩ := wake_returns waiting goesOn
          rw [returned]
          simp [waits]
      · simp only [ne_eq, other, not_false_eq_true, if_true]
        exact ih (waiters_wake_of_ne waiting other timeUs timedOut) nowUs

/-- Every wait of a call is for the rest of the configured time, so that it ends when that time is
over, exactly when the milliseconds fit the counter and no wake-up but the last comes after the
start; and a wait that ends in a timeout returns `nullptr`. -/
theorem callWaits_iff (empty : pool.connQue = []) (busy : pool.dbConf.maxActive ≤ pool.curActive)
    (startUs now : Int) (connected : Bool) (actions : List PoolAction) :
    ((∀ wait ∈ pool.callWaits startUs now connected actions,
        IsRest (pool.dbConf.timeoutMs.toNat * 1000) startUs wait) ↔
      pool.dbConf.timeoutMs.toNat ≤ 4294967 ∧
        ∀ wait ∈ (pool.callWaits startUs now connected actions).tail.dropLast,
          wait.1 = startUs) ∧
    (∀ wait, IsRest (pool.dbConf.timeoutMs.toNat * 1000) startUs wait ↔
      wait.1 + wait.2 = startUs + pool.dbConf.timeoutMs.toNat * 1000) ∧
    ∀ (later : DBPool) index call, later.waiters[index]? = some call → ∀ nowUs timedOut,
      (later.wake index nowUs timedOut).1 = .returned none ↔ timedOut = true := by
  refine ⟨?_, fun wait => ?_, fun later index call waiting => wake_null_iff waiting⟩
  · have product : (pool.dbConf.timeoutMs * 1000).toNat =
        pool.dbConf.timeoutMs.toNat * 1000 % 2 ^ 32 := rfl
    have first : IsRest (pool.dbConf.timeoutMs.toNat * 1000) startUs
        (startUs, (firstCall pool.dbConf startUs).timeoutUs) ↔
          pool.dbConf.timeoutMs.toNat ≤ 4294967 := by
      simp only [IsRest, firstCall, product]
      omega
    have waiting : (pool.waiters ++ [firstCall pool.dbConf startUs])[pool.waiters.length]? =
        some (firstCall pool.dbConf startUs) := by simp
    rw [callWaits, getConnection_of_busy empty busy]
    simp only
    rw [waitAt_of_waiting waiting, singleton_append, tail_cons, laterWaits_eq waiting]
    refine (isRest_waits_iff _ (firstCall pool.dbConf startUs) startUs _).trans
      (and_congr first ?_)
    cases laterWaits _ pool.waiters.length actions with
    | nil => simp [firstCall]
    | cons wait later =>
      rw [map_cons, dropLast_cons_of_ne_nil (cons_ne_nil _ _), ← map_cons, ← map_dropLast,
        forall_mem_cons, forall_mem_map]
      exact and_iff_right rfl
  · simp only [IsRest]
    omega

end

/-- A second caller that is woken once, after 400 ms, by a connection that a third one takes waits
for the remaining 1100 ms. -/
theorem callWaits_iff_singleConf : ∃ pool, create singleConf = some pool ∧
    ∀ wait ∈ (pool.step (.getConnection 0 0 true)).callWaits 0 0 true
        [.release 0 400000000, .getConnection 400000 400000000 true, .wake 0 400000 false],
      IsRest 1500000 0 wait := by
  obtain ⟨pool, created⟩ : ∃ pool, create singleConf = some pool := ⟨_, rfl⟩
  refine ⟨pool, created, ?_⟩
  obtain rfl := Option.some.inj created
  exact (callWaits_iff (by rfl) (by decide) 0 0 true _).1.2 ⟨by decide, by decide⟩

/-- With the default of 1500 ms, a call that loses the connection to another caller after 400 ms and
after 800 ms waits for 300 ms only, and returns `nullptr` after 1100 ms.  A timeout of 4294968 ms is
taken for 704 μs. -/
theorem not_isRest_callWaits : (∃ pool, create singleConf = some pool ∧
      (800000, 300000) ∈ (pool.step (.getConnection 0 0 true)).callWaits 0 0 true
        [.release 0 400000000, .getConnection 400000 400000000 true, .wake 0 400000 false,
          .release 0 800000000, .getConnection 800000 800000000 true, .wake 0 800000 false]) ∧
    ¬IsRest (1500 * 1000) 0 (800000, 300000) ∧
    ∃ pool, create { singleConf with timeoutMs := 4294968 } = some pool ∧
      (pool.step (.getConnection 0 0 true)).callWaits 0 0 true [] = [(0, 704)] := by
  refine ⟨⟨_, rfl, by decide⟩, ?_, ⟨_, rfl, by decide⟩⟩
  simp [IsRest]

/-- The readings of the clock by an action lie between two times. -/
def Within (start stop : Int) : PoolAction → Prop
  | .getConnection _ now _ => start ≤ now ∧ now ≤ stop
  | .wake .. => start ≤ stop
  | .release _ now => start ≤ now ∧ now ≤ stop
  | .recycleConnection clock _ => ∀ round, start ≤ clock round ∧ clock round ≤ stop

/-- The pools at a time, after any actions under a clock that does not go back. -/
inductive Reachable : Int → DBPool → Prop
  | create {conf : DbConfig} {pool : DBPool} (time : Int) (created : create conf = some pool) :
    Reachable time pool
  | step {start stop : Int} {pool : DBPool} {action : PoolAction}
    (reachable : Reachable start pool) (within : Within start stop action) :
    Reachable stop (pool.step action)

/-- Connections in the order in which they became idle, up to a time. -/
structure Ordered (time : Int) (connQue : List MysqlConn) : Prop where
  sorted : connQue.Pairwise (·.freeTime ≤ ·.freeTime)
  past : ∀ conn ∈ connQue, conn.freeTime ≤ time

/-- The connection is returned, with the others left in the queue. -/
def HandsOut (conn : MysqlConn) (others : List MysqlConn) : PoolOutcome × DBPool → Prop
  | (.returned (some given), after) => given = conn ∧ after.connQue = others
  | _ => False

/-- A call returns the head of the queue or a new connection, or leaves the queue. -/
def TakesHead (pool : DBPool) : PoolOutcome × DBPool → Prop
  | (.returned (some conn), after) =>
    pool.connQue = conn :: after.connQue ∨ after.connQue = []
  | (_, after) => after.connQue = pool.connQue

section

variable {pool : DBPool} {connQue kept : List MysqlConn} {start stop : Int}

theorem takesHead_handOut (waiters : List PoolWaiter) :
    TakesHead pool (handOut { pool with waiters := waiters }) := by
  rw [handOut]
  split
  · rfl
  · next queue => exact .inl queue

theorem takesHead_getConnection (nowUs now : Int) (connected : Bool) :
    TakesHead pool (pool.getConnection nowUs now connected) := by
  rw [getConnection]
  split
  · next empty =>
    split
    · rfl
    · cases connected with
      | false => rfl
      | true =>
        simp only [addConnect, if_true, handOut, empty, nil_append]
        exact .inr rfl
  · exact takesHead_handOut pool.waiters

theorem takesHead_wake (waiter : Nat) (nowUs : Int) (timedOut : Bool) :
    TakesHead pool (pool.wake waiter nowUs timedOut) := by
  rw [wake]
  split
  · rfl
  · split
    · rfl
    · dsimp only
      split
      · rfl
      · exact takesHead_handOut _

theorem TakesHead.sublist {result : PoolOutcome × DBPool} (takes : TakesHead pool result) :
    result.2.connQue.Sublist pool.connQue := by
  unfold TakesHead at takes
  split at takes
  · rcases takes with queue | empty
    · exact queue ▸ sublist_cons_self _ _
    · exact empty ▸ nil_sublist _
  · rw [takes]

theorem Ordered.sublist (ordered : Ordered start connQue) (sublist : kept.Sublist connQue)
    (later : start ≤ stop) : Ordered stop kept :=
  ⟨ordered.sorted.sublist sublist,
    fun conn mem => Int.le_trans (ordered.past conn (sublist.subset mem)) later⟩

theorem Ordered.push (ordered : Ordered start connQue) (sublist : kept.Sublist connQue)
    {now : Int} (conn : MysqlConn) (later : start ≤ now ∧ now ≤ stop) :
    Ordered stop (kept ++ [conn.refreshFreeTime now]) := by
  obtain ⟨sorted, past⟩ := ordered.sublist sublist later.1
  constructor
  · refine pairwise_append.mpr ⟨sorted, pairwise_singleton _ _, fun old mem => ?_⟩
    simpa [MysqlConn.refreshFreeTime] using past old mem
  · rw [forall_mem_append, forall_mem_singleton]
    exact ⟨fun old mem => Int.le_trans (past old mem) later.2, later.2⟩

theorem Ordered.step (ordered : Ordered start pool.connQue) {action : PoolAction}
    (within : Within start stop action) : Ordered stop (pool.step action).connQue := by
  rw [DBPool.step]
  cases action with
  | getConnection nowUs now connected =>
    exact ordered.sublist (takesHead_getConnection ..).sublist (Int.le_trans within.1 within.2)
  | wake waiter nowUs timedOut => exact ordered.sublist (takesHead_wake ..).sublist within
  | release holder now =>
    rw [act, release]
    split
    · exact ordered.sublist (List.Sublist.refl _) (Int.le_trans within.1 within.2)
    · next conn _ => exact ordered.push (List.Sublist.refl _) conn within
  | recycleConnection clock refreshed =>
    have later := Int.le_trans (within 0).1 (within 0).2
    rw [act, recycleConnection]
    split
    · exact ordered.sublist (dropExpired_sublist _ _ _ _) later
    · split
      · exact ordered.sublist (List.Sublist.refl _) later
      · next conn connQue queue =>
        have tail : connQue.Sublist pool.connQue := queue ▸ sublist_cons_self conn connQue
        split
        · split
          · exact ordered.push tail conn (within 1)
          · exact ordered.sublist tail later
        · exact ordered.sublist (List.Sublist.refl _) later

theorem Reachable.ordered {time : Int} (reachable : Reachable time pool) :
    Ordered time pool.connQue := by
  induction reachable with
  | create time made =>
    obtain ⟨checked, -, rfl⟩ := Option.map_eq_some_iff.mp made
    exact ⟨List.Pairwise.nil, fun _ mem => absurd mem not_mem_nil⟩
  | step _ within ih => exact ih.step within

theorem dropExpired_spec (conf : DbConfig) (clock : Nat → Int) (round : Nat)
    (sorted : connQue.Pairwise (·.freeTime ≤ ·.freeTime)) :
    (conf.minIdle.toNat ≤ connQue.length →
      conf.minIdle.toNat ≤ (dropExpired conf clock round connQue).length) ∧
    ((dropExpired conf clock round connQue).length ≤ conf.minIdle.toNat ∨
      ∀ conn ∈ dropExpired conf clock round connQue,
        conn.getFreeTime (clock (round + (connQue.length -
          (dropExpired conf clock round connQue).length))) < conf.ildeTimeoutMs.toNat) := by
  induction connQue generalizing round with
  | nil => exact ⟨id, .inl (zero_le _)⟩
  | cons conn connQue ih =>
    obtain ⟨first, rest⟩ := pairwise_cons.mp sorted
    have shorter := (dropExpired_sublist conf clock (round + 1) connQue).length_le
    rw [dropExpired]
    split
    · next many =>
      split
      · obtain ⟨enough, ends⟩ := ih (round + 1) rest
        rw [Nat.add_right_comm, Nat.add_assoc, ← Nat.sub_add_comm shorter] at ends
        exact ⟨fun _ => enough (Nat.le_of_lt_succ many), ends⟩
      · next fresh =>
        refine ⟨id, .inr ?_⟩
        rw [Nat.sub_self, Nat.add_zero, forall_mem_cons]
        refine ⟨Int.not_le.mp fresh, fun other mem => ?_⟩
        have := first other mem
        have : other.getFreeTime (clock round) ≤ conn.getFreeTime (clock round) :=
          Int.tdiv_le_tdiv (by decide) (by omega)
        omega
    · next few => exact ⟨id, .inl (not_lt.mp few)⟩

theorem handsOut_getConnection {conn : MysqlConn} (queue : pool.connQue = conn :: connQue)
    (nowUs now : Int) (connected : Bool) :
    HandsOut conn connQue (pool.getConnection nowUs now connected) := by
  rw [getConnection, if_neg (by simp [queue]), handOut, queue]
  exact ⟨rfl, rfl⟩

theorem handsOut_wake {conn : MysqlConn} (queue : pool.connQue = conn :: connQue) {waiter : Nat}
    (waiting : waiter < pool.waiters.length) (nowUs : Int) :
    HandsOut conn connQue (pool.wake waiter nowUs false) := by
  rw [wake, getElem?_eq_getElem waiting]
  simp only [Bool.false_eq_true, if_false, queue, reduceCtorEq, handOut]
  exact ⟨rfl, rfl⟩

/-- The idle connections are in the order in which they became idle, a call or a wake-up that finds
any hands out the first one, and a pass ends with at most `min_idle` connections or with none that
is idle for too long at its last look at the clock; only a failed refresh takes it below `min_idle`.
-/
theorem Reachable.idle {time : Int} (reachable : Reachable time pool) :
    pool.connQue.Pairwise (·.freeTime ≤ ·.freeTime) ∧
    (∀ conn others, pool.connQue = conn :: others →
      (∀ nowUs now connected,
        HandsOut conn others (pool.getConnection nowUs now connected)) ∧
      ∀ waiter < pool.waiters.length, ∀ nowUs,
        HandsOut conn others (pool.wake waiter nowUs false)) ∧
    (∀ action conn after, pool.act action = (.returned (some conn), after) →
      ∀ other ∈ after.connQue, conn.freeTime ≤ other.freeTime) ∧
    ∀ clock refreshed after, pool.recycleConnection clock refreshed = after →
      (after.connQue.length ≤ pool.dbConf.minIdle.toNat ∨
        ∀ conn ∈ after.connQue, conn.getFreeTime (clock (pool.connQue.length -
          after.connQue.length)) < pool.dbConf.ildeTimeoutMs.toNat) ∧
      (min pool.connQue.length pool.dbConf.minIdle.toNat ≤ after.connQue.length ∨
        pool.connQue.length ≤ pool.dbConf.minIdle.toNat ∧ refreshed = false) := by
  have sorted := reachable.ordered.sorted
  refine ⟨sorted, ?_, ?_, ?_⟩
  · intro conn others queue
    exact ⟨handsOut_getConnection queue, fun waiter waiting => handsOut_wake queue waiting⟩
  · intro action conn after returned other member
    have takes : TakesHead pool (.returned (some conn), after) := by
      cases action with
      | getConnection => exact returned ▸ takesHead_getConnection ..
      | wake => exact returned ▸ takesHead_wake ..
      | release | recycleConnection => exact absurd returned (by simp [act])
    rcases takes with queue | empty
    · exact (pairwise_cons.mp (queue ▸ sorted)).1 other member
    · exact absurd (empty ▸ member) not_mem_nil
  · rintro clock refreshed after rfl
    obtain ⟨enough, ends⟩ := dropExpired_spec pool.dbConf clock 0 sorted
    rw [Nat.zero_add] at ends
    rw [recycleConnection]
    split
    · next many => exact ⟨ends, .inl (by have := enough (by omega); dsimp only; omega)⟩
    · next few =>
      have few := not_lt.mp few
      split
      · exact ⟨.inl few, .inl (min_le_left _ _)⟩
      · next conn connQue queue =>
        have length_eq : pool.connQue.length = connQue.length + 1 := congrArg List.length queue
        split
        · cases refreshed <;> simp <;> omega
        · exact ⟨.inl few, .inl (min_le_left _ _)⟩

end

/-- Of two connections that are given back, a pass drops the first, and the next call gets the
second. -/
theorem idle_pairConf : ∃ pool, create { singleConf with maxActive := 2 } = some pool ∧
    ∀ nowUs now connected, HandsOut ⟨1, 7⟩ [] ((List.foldl step pool
      [.getConnection 0 5 true, .getConnection 0 5 true, .release 1 6, .release 0 7,
        .recycleConnection (fun _ => 1800000000006) true]).getConnection nowUs now connected) := by
  obtain ⟨pool, created⟩ : ∃ pool, create { singleConf with maxActive := 2 } = some pool :=
    ⟨_, rfl⟩
  refine ⟨pool, created, ?_⟩
  have reachable : Reachable 1800000000006 (List.foldl step pool
      [.getConnection 0 5 true, .getConnection 0 5 true, .release 1 6, .release 0 7,
        .recycleConnection (fun _ => 1800000000006) true]) := by
    refine @Reachable.step 7 _ _ _ (@Reachable.step 6 _ _ _ (@Reachable.step 5 _ _ _
      (@Reachable.step 5 _ _ _ (.step (.create 0 created) ?_) ?_) ?_) ?_) ?_
    all_goals simp [Within]
  obtain rfl := Option.some.inj created
  exact (reachable.idle.2.1 ⟨1, 7⟩ [] (by rfl)).1

end DBPool
end McBrpc
