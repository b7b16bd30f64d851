import Mathlib.Data.List.Rotate
import McBrpc.Brpc.LoadBalancer
import McBrpc.Library.LowerBound

/-!
# The consistent hashing balancer

`ConsistentHashingLoadBalancer` puts every server at several places of a ring of 32-bit hashes, and
a request goes to the first place at or behind its code.
-/

namespace McBrpc.ConsistentHashing

structure Node (Addr : Type*) where
  hash : UInt32
  serverSock : ServerId
  serverAddr : Addr
  deriving DecidableEq

variable {Addr : Type*}

/-- A call of `SelectServer`: the pool of sockets as it finds it, and its parameters. -/
structure SelectCall (Addr : Type*) where
  sockets : Sockets Addr
  input : SelectIn

/-- The loop of `SelectServer` over the nodes from the choice on, once round the ring. -/
def probe (call : SelectCall Addr) : List (Node Addr) → Except Errno SocketId
  | [] => .error .ehostdown
  | choice :: rest =>
    -- always take the last chance
    if (rest = [] ∨ call.input.isExcluded choice.serverSock.id = false) ∧
        call.sockets.available choice.serverSock.id then
      .ok choice.serverSock.id
    else probe call rest

/-- The position of the first node with a hash that is not below the code. -/
def choicePosition (ring : List (Node Addr)) (code : UInt32) : Nat :=
  lowerBound (fun position => ring[position]?.any (·.hash < code)) ring.length

def selectServer (call : SelectCall Addr) (ring : List (Node Addr)) : Except Errno SocketId :=
  if call.input.hasRequestCode = false then .error .einval
  else if call.input.requestCode.toNat ≥ 2 ^ 32 then .error .einval
  else if ring = [] then .error .enodata
  -- a choice at the end is one at the beginning
  else probe call (ring.rotate (choicePosition ring call.input.requestCode.toUInt32))

end McBrpc.ConsistentHashing
