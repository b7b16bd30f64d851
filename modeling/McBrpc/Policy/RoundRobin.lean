import McBrpc.Brpc.LoadBalancer
import McBrpc.Library.IndexedList

/-!
# The round robin balancer

`RoundRobinLoadBalancer` walks over the list of servers with a stride that every thread draws from
a table of primes.  A selection probes as many positions as there are servers, passes over excluded
and unavailable ones, and takes an excluded server at its last probe only.
-/

namespace McBrpc.RoundRobin

/-- `bthread/offset_inl.list`. -/
def primeOffset : List UInt32 :=
  [36809,36821,36833,36847,36857,36871,36877,36887,36899,36901,36913,36919,36923,36929,36931,36943,
   36947,36973,36979,36997,37003,37013,37019,37021,37039,37049,37057,37061,37087,37097,37117,37123,
   37139,37159,37171,37181,37189,37199,37201,37217,37223,37243,37253,37273,37277,37307,37309,37313,
   37321,37337,37339,37357,37361,37363,37369,37379,37397,37409,37423,37441,37447,37463,37483,37489,
   37493,37501,37507,37511,37517,37529,37537,37547,37549,37561,37567,37571,37573,37579,37589,37591,
   37607,37619,37633,37643,37649,37657,37663,37691,37693,37699,37717,37747,37781,37783,37799,37811,
   37813,37831,37847,37853,37861,37871,37879,37889,37897,37907,37951,37957,37963,37967,37987,37991,
   37993,37997,38011,38039,38047,38053,38069,38083,38113,38119,38149,38153,38167,38177,38183,38189,
   38197,38201,38219,38231,38237,38239,38261,38273,38281,38287,38299,38303,38317,38321,38327,38329,
   38333,38351,38371,38377,38393,38431,38447,38449,38453,38459,38461,38501,38543,38557,38561,38567,
   38569,38593,38603,38609,38611,38629,38639,38651,38653,38669,38671,38677,38693,38699,38707,38711,
   38713,38723,38729,38737,38747,38749,38767,38783,38791,38803,38821,38833,38839,38851,38861,38867,
   38873,38891,38903,38917,38921,38923,38933,38953,38959,38971,38977,38993,39019,39023,39041,39043,
   39047,39079,39089,39097,39103,39107,39113,39119,39133,39139,39157,39161,39163,39181,39191,39199,
   39209,39217,39227,39229,39233,39239,39241,39251,39293,39301,39313,39317,39323,39341,39343,39359,
   39367,39371,39373,39383,39397,39409,39419,39439,39443,39451,39461,39499,39503,39509,39511,39521,
   39541,39551,39563,39569,39581,39607,39619,39623,39631,39659,39667,39671,39679,39703,39709,39719,
   39727,39733,39749,39761,39769,39779,39791,39799,39821,39827,39829,39839,39841,39847,39857,39863,
   39869,39877,39883,39887,39901,39929,39937,39953,39971,39979,39983,39989,40009,40013,40031,40037,
   40039,40063,40087,40093,40099,40111,40123,40127,40129,40151,40153,40163,40169,40177,40189,40193,
   40213,40231,40237,40241,40253,40277,40283,40289,40343,40351,40357,40361,40387,40423,40427,40429,
   40433,40459,40471,40483,40487,40493,40499,40507,40519,40529,40531,40543,40559,40577,40583,40591,
   40597,40609,40627,40637,40639,40693,40697,40699,40709,40739,40751,40759,40763,40771,40787,40801,
   40813,40819,40823,40829,40841,40847,40849,40853,40867,40879,40883,40897,40903,40927,40933,40939,
   40949,40961,40973,40993,41011,41017,41023,41039,41047,41051,41057,41077,41081,41113,41117,41131,
   41141,41143,41149,41161,41177,41179,41183,41189,41201,41203,41213,41221,41227,41231,41233,41243,
   41257,41263,41269,41281,41299,41333,41341,41351,41357,41381,41387,41389,41399,41411,41413,41443,
   41453,41467,41479,41491,41507,41513,41519,41521,41539,41543,41549,41579]

/-- The list of servers with the map of their positions. -/
abbrev Servers := IndexedList (id : ServerId → ServerId)

namespace Servers

def serverList (bg : Servers) : List ServerId := bg.items

end Servers

def add (bg : Servers) (id : ServerId) : Bool × Servers :=
  match fresh : bg.index.find? id with
  | some _ => (false, bg)
  | none => (true, bg.push id fresh)

def batchAdd (bg : Servers) (servers : List ServerId) : Nat × Servers := batch add bg servers

/-- The thread-local state, with the values of the constructor. -/
structure TLS where
  stride : UInt32 := 0
  offset : UInt32 := 0
  deriving DecidableEq, Repr

/-- A call of `SelectServer`: the pool of sockets as it finds it, its parameters, the decision of
the recover policy, and the numbers it draws for a new thread. -/
structure SelectCall (Addr : Type*) where
  sockets : Sockets Addr
  input : SelectIn
  rejects : Bool
  randomStride : Nat
  randomOffset : Nat

/-- The next position; the sum is one of `uint32_t`. -/
def TLS.advance (tls : TLS) (n : Nat) : TLS :=
  { tls with offset := UInt32.ofNat ((tls.offset + tls.stride).toNat % n) }

variable {Addr : Type*}

/-- The state with which the loop of `SelectServer` begins. -/
def TLS.prepare (tls : TLS) (call : SelectCall Addr) (n : Nat) : TLS :=
  if tls.stride = 0 then
    { stride := primeOffset.getD (call.randomStride % primeOffset.length) 0
      offset := UInt32.ofNat (call.randomOffset % n) }
  else tls

/-- The loop of `SelectServer`.  Nothing is returned where it reads behind the end of the list. -/
def selectLoop (call : SelectCall Addr) (s : Servers) :
    Nat → TLS → Option (Except Errno SocketId × TLS)
  | 0, tls => some (.error .ehostdown, tls)
  | remaining + 1, tls =>
    let tls := tls.advance s.serverList.length
    match s.serverList[tls.offset.toNat]? with
    | none => none
    | some server =>
      -- always take the last chance
      if (remaining = 0 ∨ call.input.isExcluded server.id = false) ∧
          call.sockets.available server.id then
        some (.ok server.id, tls)
      else selectLoop call s remaining tls

def selectServer (call : SelectCall Addr) (s : Servers) (tls : TLS) :
    Option (Except Errno SocketId × TLS) :=
  let n := s.serverList.length
  if n = 0 then some (.error .enodata, tls)
  else if call.rejects then some (.error .ereject, tls)
  else selectLoop call s n (tls.prepare call n)

end McBrpc.RoundRobin
