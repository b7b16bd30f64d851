import McBrpc.LbStat.LbStatClient
import McBrpc.LbStat.StrategyRound

/-!
# The statistics server

The name agent adds the reported counts to the statistics of an endpoint.  A strategy round swaps
the map in use with a spare one.  A reporting call finds its object under the mutex and adds its
counts after the mutex is released, so the two may interleave.
-/

namespace McBrpc

open Function

/-- A statistics object on the heap.  `calls` records which calls have added their counts. -/
structure StatObject where
  stats : ServerStats
  calls : List (Nat × LbStatInfo)

/-- The statistics server, its strategy boards and the calls under way.  A map holds pointers to
objects; calls are numbered.  `reads` records, for every run of the strategy generator, the calls
whose counts it has read, and `completed` the calls that have returned. -/
structure LbStatSvr where
  svrStatList : Fin 2 → KeyedMap String Nat
  inuseIdx : Fin 2
  heap : Nat → StatObject
  allocated : Nat
  pending : KeyedMap Nat (Nat × LbStatInfo)
  nextCall : Nat
  swapped : Bool
  shm : StrategyShm
  reads : List (List (Nat × LbStatInfo))
  completed : List (Nat × LbStatInfo)

namespace LbStatSvr

/-- The key of `LbAddStat`. -/
def statKey (info : LbStatInfo) : String :=
  cStr info.endpoint.ip ++ ":" ++ toString (intOfUint32 info.endpoint.port)

variable (server : LbStatSvr)

/-- The part of `LbAddStat` under the mutex: find or create the object of the endpoint. -/
def findStat (info : LbStatInfo) : LbStatSvr :=
  let curSvrStat := server.svrStatList server.inuseIdx
  match curSvrStat.find? (statKey info) with
  | some stat =>
    { server with
      pending := server.pending.insert server.nextCall (stat, info)
      nextCall := server.nextCall + 1 }
  | none =>
    let stats := { ServerStats.new with
      ip := info.endpoint.ip
      port := intOfUint32 info.endpoint.port
      serviceName := info.serviceName }
    { server with
      svrStatList := update server.svrStatList server.inuseIdx
        (curSvrStat.insert (statKey info) server.allocated)
      heap := update server.heap server.allocated ⟨stats, []⟩
      allocated := server.allocated + 1
      pending := server.pending.insert server.nextCall (server.allocated, info)
      nextCall := server.nextCall + 1 }

/-- The rest of `LbAddStat`: add the counts to the object. -/
def addStat (call : Nat) : LbStatSvr :=
  match server.pending.find? call with
  | none => server
  | some (stat, info) =>
    let object := server.heap stat
    { server with
      heap := update server.heap stat
        ⟨object.stats.addCounters info, (call, info) :: object.calls⟩
      pending := server.pending.erase call
      completed := (call, info) :: server.completed }

/-- The start of `GenerateStrategy`, up to the end of `SwapSvrStat`. -/
def swapSvrStat : LbStatSvr :=
  { server with
    inuseIdx := server.inuseIdx + 1
    swapped := true }

/-- The rest of `GenerateStrategy`: the strategy generator takes the entries of the former map. -/
def generateStrategy (env : RoundEnv) : LbStatSvr :=
  let curStat := server.svrStatList (server.inuseIdx + 1)
  let (_, shm, statMap) := DefaultStrategyGenerator.updateStrategy env server.shm
    (curStat.mapValues fun stat => (server.heap stat).stats)
  let taken := curStat.filterKeys fun key => (statMap.find? key).isNone
  { server with
    svrStatList := update server.svrStatList (server.inuseIdx + 1)
      (curStat.filterKeys fun key => (statMap.find? key).isSome)
    swapped := false
    shm := shm
    reads := server.reads ++ [taken.values.flatMap fun stat => (server.heap stat).calls] }

inductive Action
  | findStat (info : LbStatInfo)
  | addStat (call : Nat)
  | swapSvrStat
  | generateStrategy (env : RoundEnv)

/-- One thread generates strategies, so a swap and a run of the generator alternate. -/
def step : Action → LbStatSvr
  | .findStat info => server.findStat info
  | .addStat call => server.addStat call
  | .swapSvrStat => if server.swapped then server else server.swapSvrStat
  | .generateStrategy env => if server.swapped then server.generateStrategy env else server

def initial (shm : StrategyShm) : LbStatSvr where
  svrStatList := fun _ => ∅
  inuseIdx := 0
  heap := fun _ => ⟨.new, []⟩
  allocated := 0
  pending := ∅
  nextCall := 0
  swapped := false
  shm := shm
  reads := []
  completed := []

end LbStatSvr
end McBrpc
