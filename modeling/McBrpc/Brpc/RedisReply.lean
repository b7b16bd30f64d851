import McBrpc.Brpc.RedisNumber
import McBrpc.Library.Feeding

/-!
# Redis replies on the client side

`RedisReply::ConsumePartialIOBuf` reads one reply from the bytes that have arrived.  An array keeps
its partly read elements and the index at which it was suspended.  `consume` bounds the depth of the
nested calls, and `consumePartialIOBuf` takes a bound that is large enough.
-/

namespace McBrpc

open List
namespace Redis

open Feeding

/-- A reply and the state of its parse.  `length` is the `int` that holds the number of elements,
`lastIndex` the element at which an array was suspended, `none` standing for `-1`.  The `_length` of
a text is the number of its bytes, see `textLength`. -/
inductive RedisReply where
  | nil
  | error (text : List UInt8)
  | status (text : List UInt8)
  | integer (value : Int)
  | string (text : List UInt8)
  | array (length : Int) (lastIndex : Option Nat) (replies : List RedisReply)
deriving Repr

/-- `_length` of a text, an `int`. -/
def textLength (text : List UInt8) : Int := Int.bmod text.length 4294967296

/-- What a call returns when it does not ask for more data. -/
inductive Verdict where
  | ok
  | absolutelyWrong
deriving DecidableEq, Repr

inductive Front where
  | incomplete
  /-- Not a reply; the string in front of a missing CRLF has been stored by then. -/
  | wrong (stored : Option RedisReply) (rest : List UInt8)
  | reply (reply : RedisReply) (rest : List UInt8)
  /-- The header of an array with at least one element. -/
  | header (count : Nat) (rest : List UInt8)
deriving Repr

/-- `"+<string>\r\n"` and `"-<message>\r\n"`. -/
def simpleString (fc : UInt8) (buf : List UInt8) : Front :=
  match findCrlf buf with
  | none => if 4294967295 < buf.length then .wrong none buf else .incomplete
  | some pos =>
    let text := (buf.take pos).drop 1
    .reply (if fc = 45 then .error text else .status text) (buf.drop (pos + 2))

/-- `"$<length>\r\n<string>\r\n"`. -/
def bulkReply (buf : List UInt8) (len : Int) (size : Nat) : Front :=
  if len < 0 then .reply .nil (buf.drop size)
  else if 4294967295 < len then .wrong none buf
  else if buf.length < size + len.toNat + 2 then .incomplete
  else
    let text := RedisReply.string ((buf.drop size).take len.toNat)
    let rest := buf.drop (size + len.toNat + 2)
    if (buf.drop (size + len.toNat)).take 2 = [13, 10] then .reply text rest
    else .wrong (some text) rest

/-- `"*<size>\r\n<sub-reply1><sub-reply2>..."`, up to the elements. -/
def arrayReply (buf : List UInt8) (count : Int) (size : Nat) : Front :=
  if count < 0 then .reply .nil (buf.drop size)
  else if count = 0 then .reply (.array 0 none []) (buf.drop size)
  else if 4294967295 < count then .wrong none buf
  else .header count.toNat (buf.drop size)

def numbered (fc : UInt8) (buf : List UInt8) : Front :=
  match peekNumber buf with
  | .incomplete => .incomplete
  | .invalid => .wrong none buf
  | .parsed value size =>
    if fc = 58 then .reply (.integer value) (buf.drop size)
    else if fc = 36 then bulkReply buf value size
    else arrayReply buf value size

/-- The part of `ConsumePartialIOBuf` that looks at the buffer. -/
def readFront (buf : List UInt8) : Front :=
  match buf with
  | [] => .incomplete
  | fc :: _ =>
    if fc = 45 ∨ fc = 43 then simpleString fc buf
    else if fc = 36 ∨ fc = 42 ∨ fc = 58 then numbered fc buf
    else .wrong none buf

/-- The outcome of the loop over elements behind others that are complete: the elements, and how
many of them are complete. -/
def prepend (complete : List RedisReply) :
    Outcome (List RedisReply × Nat) UInt8 Verdict → Outcome (List RedisReply × Nat) UInt8 Verdict
  | .more (subs, parsed) rest => .more (complete ++ subs, complete.length + parsed) rest
  | .done verdict (subs, parsed) rest =>
    .done verdict (complete ++ subs, complete.length + parsed) rest

def consumeSubs (one : RedisReply → List UInt8 → Outcome RedisReply UInt8 Verdict) :
    List RedisReply → List UInt8 → Outcome (List RedisReply × Nat) UInt8 Verdict
  | [], buf => .done .ok ([], 0) buf
  | sub :: subs, buf =>
    match one sub buf with
    | .more sub rest => .more (sub :: subs, 0) rest
    | .done .absolutelyWrong sub rest => .done .absolutelyWrong (sub :: subs, 0) rest
    | .done .ok sub rest => prepend [sub] (consumeSubs one subs rest)

/-- The array after its loop, between the elements `before` and `behind` it. -/
def arrayOf (length : Int) (before behind : List RedisReply) :
    Outcome (List RedisReply × Nat) UInt8 Verdict → Outcome RedisReply UInt8 Verdict
  | .more (subs, parsed) rest =>
    .more (.array length (some (before.length + parsed)) (before ++ subs ++ behind)) rest
  | .done .absolutelyWrong (subs, parsed) rest =>
    .done .absolutelyWrong
      (.array length (some (before.length + parsed)) (before ++ subs ++ behind)) rest
  | .done .ok (subs, _) rest => .done .ok (.array length none (before ++ subs ++ behind)) rest

/-- The elements of the loop `for (int i = last_index; i < _length; ++i)`. -/
def resumed (length : Int) (lastIndex : Nat) (replies : List RedisReply) : List RedisReply :=
  (replies.drop lastIndex).take (length - lastIndex).toNat

/-- An array that was suspended: its length, the element to go on with and its elements. -/
def RedisReply.suspended : RedisReply → Option (Int × Nat × List RedisReply)
  | .array length (some lastIndex) replies => some (length, lastIndex, replies)
  | _ => none

/-- `ConsumePartialIOBuf` for arrays nested at most so deep. -/
def consume : Nat → RedisReply → List UInt8 → Outcome RedisReply UInt8 Verdict
  | 0, reply, buf => .more reply buf
  | depth + 1, reply, buf =>
    match reply.suspended with
    | some (length, lastIndex, replies) =>
      arrayOf length (replies.take lastIndex)
        (replies.drop (lastIndex + (resumed length lastIndex replies).length))
        (consumeSubs (consume depth) (resumed length lastIndex replies) buf)
    | none =>
      match readFront buf with
      | .incomplete => .more reply buf
      | .wrong stored rest => .done .absolutelyWrong (stored.getD reply) rest
      | .reply parsed rest => .done .ok parsed rest
      | .header count rest =>
        arrayOf (Int.bmod count 4294967296) [] []
          (consumeSubs (consume depth) (List.replicate count .nil) rest)

mutual

def RedisReply.depth : RedisReply → Nat
  | .array _ _ replies => depthOfAll replies + 1
  | _ => 0

def depthOfAll : List RedisReply → Nat
  | [] => 0
  | reply :: replies => max reply.depth (depthOfAll replies)

end

def consumePartialIOBuf (reply : RedisReply) (buf : List UInt8) :
    Outcome RedisReply UInt8 Verdict :=
  consume (reply.depth + buf.length + 1) reply buf

section Calls

variable {reply : RedisReply} {buf : List UInt8}

theorem consume_of_suspended {length : Int} {last : Nat} {replies : List RedisReply}
    (held : reply.suspended = some (length, last, replies)) (depth : Nat) (buf : List UInt8) :
    consume (depth + 1) reply buf =
      arrayOf length (replies.take last)
        (replies.drop (last + (resumed length last replies).length))
        (consumeSubs (consume depth) (resumed length last replies) buf) := by
  simp [consume, held]

theorem consume_of_front (held : reply.suspended = none) (depth : Nat) (buf : List UInt8) :
    consume (depth + 1) reply buf =
      match readFront buf with
      | .incomplete => .more reply buf
      | .wrong stored rest => .done .absolutelyWrong (stored.getD reply) rest
      | .reply parsed rest => .done .ok parsed rest
      | .header count rest =>
        arrayOf (Int.bmod count 4294967296) [] []
          (consumeSubs (consume depth) (List.replicate count .nil) rest) := by
  simp [consume, held]

end Calls

/-- What a front leaves is a part of the buffer, shorter by the nesting of the reply; a header takes
at least one byte. -/
theorem left_readFront (buf : List UInt8) : match readFront buf with
    | .incomplete => True
    | .wrong stored rest => rest.length ≤ buf.length ∧ ∀ reply ∈ stored, reply.depth = 0
    | .reply parsed rest => parsed.depth + rest.length ≤ buf.length
    | .header _ rest => rest.length < buf.length := by
  cases buf with
  | nil => trivial
  | cons fc buf =>
    by_cases simple : fc = 45 ∨ fc = 43
    · simp only [readFront, if_pos simple, simpleString]
      cases findCrlf (fc :: buf) with
      | none =>
        by_cases long : 4294967295 < (fc :: buf).length
        · simp only [if_pos long]
          exact ⟨le_refl _, nofun⟩
        · simp only [if_neg long]
      | some pos =>
        have leaf : ∀ text, (if fc = 45 then RedisReply.error text else
          .status text).depth = 0 := by
          intro text
          split <;> rfl
        simp only [leaf, length_drop]
        omega
    by_cases typed : fc = 36 ∨ fc = 42 ∨ fc = 58
    · simp only [readFront, if_neg simple, if_pos typed, numbered]
      cases number : peekNumber (fc :: buf) with
      | incomplete => trivial
      | invalid => exact ⟨le_refl _, nofun⟩
      | parsed value size =>
        have some : 3 ≤ size ∧ size ≤ (fc :: buf).length := by
          refine peekNumber_size ?_ number
          rintro rfl
          simp at typed
        simp only [bulkReply, arrayReply]
        split_ifs <;> simp [RedisReply.depth, depthOfAll] at some ⊢ <;> omega
    · simp [readFront, simple, typed]

/-- What a call leaves and the bytes behind it. -/
def Left {σ : Type} (measure : σ → Nat) (bound length : Nat) :
    Outcome σ UInt8 Verdict → Prop
  | .more state rest => measure state + rest.length ≤ bound ∧ rest.length ≤ length
  | .done _ state rest => measure state + rest.length ≤ bound ∧ rest.length ≤ length

theorem Left.mono {σ : Type} {measure : σ → Nat} {bound length larger longer : Nat}
    {outcome : Outcome σ UInt8 Verdict} (left : Left measure bound length outcome)
    (more : bound ≤ larger) (longest : length ≤ longer) : Left measure larger longer outcome := by
  cases outcome <;> exact ⟨left.1.trans more, left.2.trans longest⟩

theorem depthOfAll_append (first second : List RedisReply) :
    depthOfAll (first ++ second) = max (depthOfAll first) (depthOfAll second) := by
  induction first with
  | nil => simp [depthOfAll]
  | cons reply first ih => simp [depthOfAll, ih, max_assoc]

theorem depthOfAll_replicate (count : Nat) : depthOfAll (List.replicate count .nil) = 0 := by
  induction count with
  | zero => rfl
  | succ count ih => simp [replicate_succ, depthOfAll, RedisReply.depth, ih]

theorem resumed_split (length : Int) (last : Nat) (replies : List RedisReply) :
    replies.take last ++ resumed length last replies ++
      replies.drop (last + (resumed length last replies).length) = replies := by
  have behind : replies.drop (last + (resumed length last replies).length) =
      (replies.drop last).drop (length - last).toNat := by
    rw [← drop_drop, resumed, length_take]
    obtain short | long := Nat.le_total (length - last).toNat (replies.drop last).length
    · rw [Nat.min_eq_left short]
    · rw [Nat.min_eq_right long, drop_length, drop_of_length_le long]
  rw [behind, append_assoc, resumed, take_append_drop, take_append_drop]

theorem left_consumeSubs {one : RedisReply → List UInt8 → Outcome RedisReply UInt8 Verdict}
    (each : ∀ reply buf, Left RedisReply.depth (reply.depth + buf.length) buf.length
      (one reply buf))
    (subs : List RedisReply) (buf : List UInt8) :
    Left (fun state => depthOfAll state.1) (depthOfAll subs + buf.length) buf.length
      (consumeSubs one subs buf) := by
  induction subs generalizing buf with
  | nil => simp [consumeSubs, Left]
  | cons sub subs ih =>
    have here := each sub buf
    cases out : one sub buf with
    | more later rest =>
      simp only [consumeSubs, out, Left, depthOfAll] at here ⊢
      omega
    | done verdict later rest =>
      rw [out] at here
      cases verdict with
      | absolutelyWrong =>
        simp only [consumeSubs, out, Left, depthOfAll] at here ⊢
        omega
      | ok =>
        have tail := ih rest
        simp only [consumeSubs, out]
        cases others : consumeSubs one subs rest with
        | more state left =>
          rw [others] at tail
          simp only [prepend, singleton_append, Left, depthOfAll] at here tail ⊢
          omega
        | done verdict state left =>
          rw [others] at tail
          simp only [prepend, singleton_append, Left, depthOfAll] at here tail ⊢
          omega

theorem left_arrayOf (length : Int) (before behind : List RedisReply) {deepest deep size : Nat}
    {out : Outcome (List RedisReply × Nat) UInt8 Verdict}
    (subs : Left (fun state => depthOfAll state.1) (deep + size) size out)
    (inside : deep ≤ deepest) (first : depthOfAll before ≤ deepest)
    (last : depthOfAll behind ≤ deepest) :
    Left RedisReply.depth (deepest + 1 + size) size (arrayOf length before behind out) := by
  cases out with
  | more state rest =>
    simp only [arrayOf, Left, RedisReply.depth, depthOfAll_append] at subs ⊢
    omega
  | done verdict state rest =>
    cases verdict <;>
      simp only [arrayOf, Left, RedisReply.depth, depthOfAll_append] at subs ⊢ <;> omega

theorem depth_of_suspended {reply : RedisReply} {length : Int} {last : Nat}
    {replies : List RedisReply} (held : reply.suspended = some (length, last, replies)) :
    reply.depth = depthOfAll replies + 1 := by
  cases reply with
  | array count index elements =>
    cases index with
    | none => simp [RedisReply.suspended] at held
    | some index =>
      simp only [RedisReply.suspended, Option.some.injEq, Prod.mk.injEq] at held
      rw [RedisReply.depth, held.2.2]
  | _ => simp [RedisReply.suspended] at held

theorem left_consume (depth : Nat) (reply : RedisReply) (buf : List UInt8) :
    Left RedisReply.depth (reply.depth + buf.length) buf.length (consume depth reply buf) := by
  induction depth generalizing reply buf with
  | zero => simp [consume, Left]
  | succ depth ih =>
    cases held : reply.suspended with
    | some state =>
      obtain ⟨length, last, replies⟩ := state
      rw [consume_of_suspended held, depth_of_suspended held]
      have split := congrArg depthOfAll (resumed_split length last replies)
      simp only [depthOfAll_append] at split
      exact left_arrayOf length _ _ (left_consumeSubs ih _ buf) (by omega) (by omega) (by omega)
    | none =>
      have size := left_readFront buf
      rw [consume_of_front held]
      cases front : readFront buf with
      | incomplete => simp [Left]
      | wrong stored rest =>
        rw [front] at size
        cases stored with
        | none =>
          simp only [Left, Option.getD_none]
          omega
        | some stored =>
          have flat := size.2 stored rfl
          simp only [Left, Option.getD_some]
          omega
      | reply parsed rest =>
        rw [front] at size
        simp only [Left]
        omega
      | header count rest =>
        rw [front] at size
        have subs := left_consumeSubs ih (List.replicate count .nil) rest
        rw [depthOfAll_replicate] at subs
        have array := left_arrayOf (Int.bmod count 4294967296) [] [] subs
          (le_refl 0) (le_refl 0) (le_refl 0)
        exact array.mono (by omega) (by omega)

theorem consumeSubs_congr {one other : RedisReply → List UInt8 → Outcome RedisReply UInt8 Verdict}
    {bound : Nat}
    (each : ∀ reply buf, Left RedisReply.depth (reply.depth + buf.length) buf.length
      (one reply buf))
    (agree : ∀ reply buf, reply.depth + buf.length ≤ bound → one reply buf = other reply buf)
    (subs : List RedisReply) (buf : List UInt8) (inside : depthOfAll subs + buf.length ≤ bound) :
    consumeSubs one subs buf = consumeSubs other subs buf := by
  induction subs generalizing buf with
  | nil => rfl
  | cons sub subs ih =>
    simp only [depthOfAll] at inside
    have here := each sub buf
    have same := agree sub buf (by omega)
    simp only [consumeSubs, ← same]
    cases out : one sub buf with
    | more later rest => rfl
    | done verdict later rest =>
      rw [out] at here
      cases verdict with
      | absolutelyWrong => rfl
      | ok =>
        have shorter := here.2
        simp [ih rest (by omega)]

/-- A larger bound makes no difference once it exceeds the nesting and the bytes. -/
theorem consume_succ {depth : Nat} (reply : RedisReply) (buf : List UInt8)
    (enough : reply.depth + buf.length < depth) :
    consume (depth + 1) reply buf = consume depth reply buf := by
  induction depth generalizing reply buf with
  | zero => exact absurd enough (Nat.not_lt_zero _)
  | succ depth ih =>
    have agree : ∀ reply buf, RedisReply.depth reply + buf.length ≤ depth - 1 → 0 < depth →
        consume (depth + 1) reply buf = consume depth reply buf :=
      fun reply buf inside positive => ih reply buf (by omega)
    have each := left_consume (depth + 1)
    cases held : reply.suspended with
    | some state =>
      obtain ⟨length, last, replies⟩ := state
      rw [depth_of_suspended held] at enough
      have split := congrArg depthOfAll (resumed_split length last replies)
      simp only [depthOfAll_append] at split
      rw [consume_of_suspended held, consume_of_suspended held]
      rw [consumeSubs_congr each (fun reply buf inside => agree reply buf inside (by omega))
        _ buf (by omega)]
    | none =>
      have size := left_readFront buf
      rw [consume_of_front held, consume_of_front held]
      cases front : readFront buf with
      | incomplete => rfl
      | wrong stored rest => rfl
      | reply parsed rest => rfl
      | header count rest =>
        rw [front] at size
        simp only
        rw [consumeSubs_congr each (fun reply buf inside => agree reply buf inside (by omega))
          _ rest (by rw [depthOfAll_replicate]; omega)]

theorem consume_eq_consumePartialIOBuf {depth : Nat} (reply : RedisReply) (buf : List UInt8)
    (enough : reply.depth + buf.length < depth) :
    consume depth reply buf = consumePartialIOBuf reply buf := by
  obtain ⟨extra, rfl⟩ := Nat.exists_eq_add_of_le (Nat.succ_le_of_lt enough)
  induction extra with
  | zero => rfl
  | succ extra ih =>
    rw [← Nat.add_assoc, consume_succ reply buf (by omega)]
    exact ih (by omega)

end Redis
end McBrpc
