import McBrpc.Brpc.RedisReply

/-!
# Copies of replies

`RedisReply::CopyFromDifferentArena` copies a reply together with the state of its parse.  Of an
array that was suspended behind its first element it copies the elements in front of the one to go
on with, which may itself be an array that was suspended.
-/

namespace McBrpc.Redis

open Feeding

/-- How many elements of an array are copied. -/
def copied (length : Int) : Option Nat → Nat
  | some (index + 1) => index + 1
  | _ => length.toNat

/-- A text with a negative `_length` is taken for a short one, and `memcpy` gets the negative size
plus one. -/
def copyText (make : List UInt8 → RedisReply) (text : List UInt8) : Option RedisReply :=
  if textLength text < 0 then none else some (make text)

mutual

/-- `none` stands for a negative `_length`, for which no copy is made: there is no room for so many
elements, and of a text nothing is copied or what is behind the reply. -/
def RedisReply.copyFromDifferentArena : RedisReply → Option RedisReply
  | .array length lastIndex replies =>
    if length < 0 then none
    else (copyFirst (copied length lastIndex) replies).map fun subs =>
      .array length lastIndex (subs.take length.toNat)
  | .error text => copyText .error text
  | .status text => copyText .status text
  | .string text => copyText .string text
  | .nil => some .nil
  | .integer value => some (.integer value)

/-- The elements of the copy: the first ones are copied, the others are new. -/
def copyFirst : Nat → List RedisReply → Option (List RedisReply)
  | _, [] => some []
  | 0, _ :: replies => (copyFirst 0 replies).map (.nil :: ·)
  | count + 1, reply :: replies =>
    reply.copyFromDifferentArena.bind fun sub => (copyFirst count replies).map (sub :: ·)

end

mutual

/-- At every depth the elements that are not copied are new ones, and no `_length` is negative. -/
def RedisReply.KeepsParts : RedisReply → Prop
  | .array length lastIndex replies =>
    replies.length ≤ length ∧ KeepsFirst (copied length lastIndex) replies
  | .error text | .status text | .string text => 0 ≤ textLength text
  | .nil | .integer _ => True

def KeepsFirst : Nat → List RedisReply → Prop
  | _, [] => True
  | 0, reply :: replies => reply = .nil ∧ KeepsFirst 0 replies
  | count + 1, reply :: replies => reply.KeepsParts ∧ KeepsFirst count replies

end

theorem copyText_eq_iff {make : List UInt8 → RedisReply} {text : List UInt8} :
    copyText make text = some (make text) ↔ 0 ≤ textLength text := by
  unfold copyText
  split <;> simp <;> omega

theorem length_copyFirst {count : Nat} {replies subs : List RedisReply}
    (copies : copyFirst count replies = some subs) : subs.length = replies.length := by
  induction replies generalizing count subs with
  | nil =>
    obtain rfl := Option.some.inj copies
    rfl
  | cons reply replies ih =>
    cases count with
    | zero =>
      obtain ⟨rest, rest_eq, rfl⟩ := Option.map_eq_some_iff.mp copies
      simp [ih rest_eq]
    | succ count =>
      obtain ⟨sub, -, copies⟩ := Option.bind_eq_some_iff.mp copies
      obtain ⟨rest, rest_eq, rfl⟩ := Option.map_eq_some_iff.mp copies
      simp [ih rest_eq]

mutual

theorem copy_eq_iff : ∀ reply : RedisReply,
    reply.copyFromDifferentArena = some reply ↔ reply.KeepsParts
  | .array length lastIndex replies => by
    rw [RedisReply.copyFromDifferentArena, RedisReply.KeepsParts, ← copyFirst_eq_iff]
    constructor
    · intro copies
      split at copies
      · simp at copies
      · next positive =>
        obtain ⟨subs, subs_eq, same⟩ := Option.map_eq_some_iff.mp copies
        have taken : subs.take length.toNat = replies := by simpa using same
        have size := length_copyFirst subs_eq
        have short : subs.length ≤ length.toNat := by
          rw [size, ← taken, List.length_take]
          omega
        rw [List.take_of_length_le short] at taken
        exact ⟨by omega, by rw [subs_eq, taken]⟩
    · rintro ⟨short, copies⟩
      rw [if_neg (by omega), copies, Option.map_some, List.take_of_length_le (by omega)]
  | .error _ | .status _ | .string _ => copyText_eq_iff
  | .nil | .integer _ => by simp [RedisReply.copyFromDifferentArena, RedisReply.KeepsParts]

theorem copyFirst_eq_iff : ∀ (count : Nat) (replies : List RedisReply),
    copyFirst count replies = some replies ↔ KeepsFirst count replies
  | _, [] => by simp [copyFirst, KeepsFirst]
  | 0, reply :: replies => by
    rw [KeepsFirst, ← copyFirst_eq_iff 0 replies, copyFirst]
    constructor
    · intro copies
      obtain ⟨rest, rest_eq, same⟩ := Option.map_eq_some_iff.mp copies
      obtain ⟨rfl, rfl⟩ := List.cons.inj same
      exact ⟨rfl, rest_eq⟩
    · rintro ⟨rfl, rest_eq⟩
      rw [rest_eq, Option.map_some]
  | count + 1, reply :: replies => by
    rw [KeepsFirst, ← copyFirst_eq_iff count replies, ← copy_eq_iff reply, copyFirst]
    simp [Option.bind_eq_some_iff, Option.map_eq_some_iff]

end

abbrev Parses := Outcome RedisReply UInt8 Verdict × Outcome RedisReply UInt8 Verdict

/-- A chunk arrives for the original or for the copy. -/
def arrive (parses : Parses) : List UInt8 ⊕ List UInt8 → Parses
  | .inl chunk => (resume consumePartialIOBuf parses.1 chunk, parses.2)
  | .inr chunk => (parses.1, resume consumePartialIOBuf parses.2 chunk)

theorem foldl_arrive (parses : Parses) (arrivals : List (List UInt8 ⊕ List UInt8)) :
    arrivals.foldl arrive parses =
      ((arrivals.filterMap Sum.getLeft?).foldl (resume consumePartialIOBuf) parses.1,
        (arrivals.filterMap Sum.getRight?).foldl (resume consumePartialIOBuf) parses.2) := by
  induction arrivals generalizing parses with
  | nil => rfl
  | cons arrival arrivals ih => cases arrival <;> exact ih _

/-- The copy goes on as the original would with the same chunks, whatever arrives for the original,
and the original goes on without regard to the copy, exactly when no element that was begun is left
out and no length is negative. -/
theorem feed_copyFromDifferentArena (reply : RedisReply) :
    (∃ copy, reply.copyFromDifferentArena = some copy ∧
      ∀ unread arrivals, List.foldl arrive (.more reply unread, .more copy unread) arrivals =
        (feed consumePartialIOBuf reply unread (arrivals.filterMap Sum.getLeft?),
          feed consumePartialIOBuf reply unread (arrivals.filterMap Sum.getRight?))) ↔
      reply.KeepsParts := by
  rw [← copy_eq_iff]
  constructor
  · rintro ⟨copy, copy_eq, same⟩
    have now := congrArg Prod.snd (same [] [])
    obtain rfl : copy = reply := by simpa [feed] using now
    exact copy_eq
  · intro copy_eq
    refine ⟨reply, copy_eq, fun unread arrivals => ?_⟩
    rw [foldl_arrive, foldl_resume, foldl_resume]

/-- The reply after `*2`, `:1` and `*2`: the second element of the array is an array that was begun
and is not copied, and only one of its two elements is read, in its place. -/
theorem feed_copyFromDifferentArena_ne : ∃ reply copy chunk,
      reply = RedisReply.array 2 (some 1) [.integer 1, .array 2 (some 0) [.nil, .nil]] ∧
        reply.copyFromDifferentArena = some copy ∧
        feed consumePartialIOBuf copy [] [chunk] ≠ feed consumePartialIOBuf reply [] [chunk] := by
  refine ⟨_, .array 2 (some 1) [.integer 1, .nil], [58, 53, 13, 10, 58, 54, 13, 10], rfl, rfl,
    fun same => ?_⟩
  exact absurd (congrArg (fun outcome => outcome.unread.length) same) (by decide +kernel)

end McBrpc.Redis
