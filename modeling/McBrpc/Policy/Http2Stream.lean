import McBrpc.Details.HpackFragments
import McBrpc.Library.CNumber
import McBrpc.Policy.Http2Settings

/-!
# The headers of a stream

`H2StreamContext` and its `ConsumeHeaders`, which decodes headers with the table of the connection
and refuses pseudo headers that it does not know or whose value it cannot use.
-/

namespace McBrpc.Http2

open Hpack

def cStr (s : List UInt8) : List UInt8 := s.takeWhile (· ≠ 0)

/-- `g_method_pairs` -/
def methodNames : List String :=
  ["DELETE", "GET", "HEAD", "POST", "PUT", "CONNECT", "OPTIONS", "TRACE", "COPY", "LOCK", "MKCOL",
    "MOVE", "PROPFIND", "PROPPATCH", "SEARCH", "UNLOCK", "REPORT", "MKACTIVITY", "CHECKOUT",
    "MERGE", "M-SEARCH", "NOTIFY", "SUBSCRIBE", "UNSUBSCRIBE", "PATCH", "PURGE", "MKCALENDAR"]

/-- Whether `Str2HttpMethod` finds a method: the sorted table keeps the names with one first letter
together, so the search from that letter on misses none. -/
def str2HttpMethod (method : List UInt8) : Bool :=
  methodNames.any fun name => tolower (cStr method) == tolower (ofAscii name)

/-- Whether `strtol` reads the value of `:status` to its end. -/
def isStatus (value : List UInt8) : Bool :=
  (CNumber.strtoll (cStr value)).2 == (cStr value).length

/-- Whether `ConsumeHeaders` takes a decoded header. -/
def acceptsHeader (pair : Header) : Bool :=
  if (cStr pair.name).head? = some 0x3a then
    if cStr pair.name = ofAscii ":method" then
      str2HttpMethod pair.value
    else if cStr pair.name = ofAscii ":status" then
      isStatus pair.value
    else
      cStr pair.name = ofAscii ":authority" || cStr pair.name = ofAscii ":path" ||
        cStr pair.name = ofAscii ":scheme"
  else
    true

/-- `H2StreamContext`.  `headers` are the accepted pairs in their order, `body` is what `OnBody`
took, `statusCode` the status set by the connection and not by a header. -/
structure H2StreamContext where
  streamId : Nat
  parsedLength : Nat := 0
  headers : List Header := []
  body : List UInt8 := []
  statusCode : Option Nat := none
  streamEnded : Bool := false
  remoteWindowLeft : Int
  deferredWindowUpdate : Nat := 0
  remainingHeaderFragment : List UInt8 := []
deriving DecidableEq, Repr

/-- `ConsumeHeaders` on the bytes of an iterator. -/
def consumeHeaders (hpacker : HPacker) (it : List UInt8) : Option HPacker.Consumed :=
  hpacker.consume acceptsHeader it.length it

/-- `ConsumeHeaders` takes the fragment. -/
def Decodes (hpacker : HPacker) (it : List UInt8) : Prop :=
  (consumeHeaders hpacker it).any (·.ok)

instance (hpacker : HPacker) (it : List UInt8) : Decidable (Decodes hpacker it) :=
  inferInstanceAs (Decidable (_ = true))

end McBrpc.Http2
