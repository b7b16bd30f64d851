import McBrpc.Brpc.RedisReplyChunks

/-!
# Where a cut makes a difference

Within the limits, the chunks in which a reply arrives make no difference exactly when no ambiguous
number is met.  An input with one can be cut right behind the bytes of the empty number: the call
takes them, while the call on the whole input stops in front of them.
-/

namespace McBrpc

open List
namespace Redis

open CNumber Feeding

section Truncation

variable {fc : UInt8} {buf rest : List UInt8} {front : List UInt8 → Front}

/-- A number is read from its own bytes: fewer bytes behind it make no difference. -/
theorem peekNumber_truncate (typed : fc ≠ 13) {value : Int} {size : Nat}
    (parsed : peekNumber (fc :: buf) = .parsed value size) :
    ∃ line behind, fc :: buf = fc :: line ++ [13, 10] ++ behind ∧ line.length + 3 = size ∧
      ∀ other, other <+: behind →
        peekNumber (fc :: line ++ [13, 10] ++ other) = .parsed value size := by
  have full : peekNumber (fc :: buf) ≠ .incomplete := by simp [parsed]
  obtain ⟨line, behind, bytes, framed⟩ := exists_framed typed full
  have shape : ∀ rest, fc :: line ++ [13, 10] ++ rest = fc :: line ++ 13 :: 10 :: rest := by simp
  refine ⟨line, behind, bytes.trans (shape behind).symm, ?_, ?_⟩
  · rw [bytes, peekNumber_framed framed, readLine] at parsed
    split at parsed
    · simp at parsed
    · simp only [Number.parsed.injEq] at parsed
      exact parsed.2
  · intro other begins
    rw [shape]
    rw [bytes] at parsed
    by_cases text : line ≠ []
    · exact (peekNumber_tail framed text _ _).trans parsed
    obtain rfl : line = [] := not_not.mp text
    have whole := peekNumber_blank typed behind
    have cut := peekNumber_blank typed other
    have unseen : ¬found ((fc :: 13 :: 10 :: other).take 31) := by
      intro seen
      have later : found ((fc :: 13 :: 10 :: behind).take 31) :=
        found_longer (take_prefix_take (by simpa using begins) (le_refl 31)) (by simp) seen
      rw [if_pos later] at whole
      exact absurd (whole.symm.trans parsed) (by simp)
    have zero : peekNumber (fc :: 13 :: 10 :: behind) = .parsed 0 3 := by
      split at whole
      · exact absurd (whole.symm.trans parsed) (by simp)
      · exact whole
    rw [if_neg unseen] at cut
    exact cut.trans (zero.symm.trans parsed)

/-- The reader finds the front in the first bytes: what is behind them may be cut off. -/
def Owns (read : List UInt8 → Front) (front : List UInt8 → Front) (buf rest : List UInt8) : Prop :=
  ∃ taken, buf = taken ++ rest ∧ taken.head? = buf.head? ∧
    ∀ other, other <+: rest → read (taken ++ other) = front other

theorem simpleString_truncate {parsed : RedisReply} (typed : fc ≠ 13)
    (there : simpleString fc (fc :: buf) = .reply parsed rest) :
    Owns (simpleString fc) (.reply parsed) (fc :: buf) rest := by
  cases line : findCrlf (fc :: buf) with
  | none =>
    simp only [simpleString, line] at there
    split at there <;> simp at there
  | some pos =>
    obtain ⟨text, behind, bytes, rfl, alone⟩ := findCrlf_eq_some line
    have read : ∀ other, simpleString fc (text ++ [13, 10] ++ other) =
        .reply (if fc = 45 then .error (text.drop 1) else .status (text.drop 1)) other := by
      intro other
      simp only [simpleString, findCrlf_append alone other]
      simp
    have whole := read behind
    rw [append_assoc, cons_append, cons_append, nil_append, ← bytes, there] at whole
    obtain ⟨rfl, rfl⟩ := whole
    refine ⟨text ++ [13, 10], by simp [bytes], ?_, fun other _ => read other⟩
    cases text with
    | nil => exact absurd (by simpa using congrArg List.head? bytes) typed
    | cons first text => simpa using (congrArg List.head? bytes).symm

theorem bulkReply_text (head text other : List UInt8) (short : text.length ≤ 4294967295) :
    bulkReply (head ++ (text ++ [13, 10] ++ other)) text.length head.length =
      .reply (.string text) other := by
  have natural : ¬(text.length : Int) < 0 := by omega
  have bounded : ¬(4294967295 : Int) < text.length := by omega
  have enough : ¬(head ++ (text ++ [13, 10] ++ other)).length <
      head.length + text.length + 2 := by
    simp only [length_append, length_cons, length_nil]
    omega
  simp only [bulkReply, if_neg natural, if_neg bounded, Int.toNat_natCast, if_neg enough]
  simp only [← drop_drop, drop_left, append_assoc, take_left]
  simp

theorem bulkReply_truncate {head behind : List UInt8} {len : Int} {parsed : RedisReply}
    (there : bulkReply (head ++ behind) len head.length = .reply parsed rest) :
    ∃ taken, behind = taken ++ rest ∧ ∀ other,
      bulkReply (head ++ (taken ++ other)) len head.length = .reply parsed other := by
  by_cases negative : len < 0
  · simp only [bulkReply, if_pos negative, drop_left, Front.reply.injEq] at there
    obtain ⟨rfl, rfl⟩ := there
    exact ⟨[], rfl, fun other => by simp [bulkReply, negative]⟩
  by_cases long : 4294967295 < len
  · simp [bulkReply, negative, long] at there
  obtain ⟨n, rfl⟩ := Int.eq_ofNat_of_zero_le (Int.not_lt.mp negative)
  simp only [bulkReply, if_neg negative, if_neg long, Int.toNat_natCast, ← drop_drop,
    drop_left] at there
  split_ifs at there with short ended
  simp only [Front.reply.injEq] at there
  obtain ⟨rfl, rfl⟩ := there
  have size : (behind.take n).length = n := by
    simp only [length_append] at short
    rw [length_take]
    omega
  refine ⟨behind.take n ++ [13, 10], ?_, fun other => ?_⟩
  · rw [← ended, append_assoc, take_append_drop, take_append_drop]
  · have text := bulkReply_text head (behind.take n) other (by omega)
    rwa [size] at text

/-- A front that is there: a reply, or the header of an array. -/
inductive Whole : (List UInt8 → Front) → Prop where
  | reply (parsed : RedisReply) : Whole (.reply parsed)
  | header (count : Nat) : Whole (.header count)

theorem arrayReply_truncate (whole : Whole front) {head behind : List UInt8} {count : Int}
    (there : arrayReply (head ++ behind) count head.length = front rest) :
    behind = rest ∧ ∀ other, arrayReply (head ++ other) count head.length = front other := by
  simp only [arrayReply, drop_left] at there ⊢
  cases whole <;> split_ifs at there ⊢ <;> simp_all

theorem numbered_truncate (whole : Whole front) (typed : fc ≠ 13)
    (there : numbered fc (fc :: buf) = front rest) : Owns (numbered fc) front (fc :: buf) rest := by
  cases number : peekNumber (fc :: buf) with
  | incomplete | invalid =>
    simp only [numbered, number] at there
    cases whole <;> simp at there
  | parsed value size =>
    obtain ⟨line, behind, bytes, rfl, cut⟩ := peekNumber_truncate typed number
    have length : (fc :: line ++ [13, 10]).length = line.length + 3 := by simp
    have read : ∀ other, other <+: behind → numbered fc (fc :: line ++ [13, 10] ++ other) =
        if fc = 58 then .reply (.integer value) other
        else if fc = 36 then
          bulkReply (fc :: line ++ [13, 10] ++ other) value (fc :: line ++ [13, 10]).length
        else
          arrayReply (fc :: line ++ [13, 10] ++ other) value (fc :: line ++ [13, 10]).length := by
      intro other begins
      simp only [numbered, cut other begins, ← length, drop_left]
    rw [bytes, read behind prefix_rfl] at there
    rw [bytes]
    split_ifs at there read with integer bulk
    · cases whole <;> simp only [Front.reply.injEq, reduceCtorEq] at there
      obtain ⟨rfl, rfl⟩ := there
      exact ⟨_, rfl, rfl, read⟩
    · cases whole with
      | reply parsed =>
        obtain ⟨taken, rfl, same⟩ := bulkReply_truncate there
        refine ⟨fc :: line ++ [13, 10] ++ taken, by simp, rfl, fun other begins => ?_⟩
        rw [append_assoc _ taken, read _ (by simpa using begins)]
        exact same other
      | header count =>
        simp only [bulkReply] at there
        split_ifs at there
    · obtain ⟨rfl, same⟩ := arrayReply_truncate whole there
      exact ⟨_, rfl, rfl, fun other begins => (read other begins).trans (same other)⟩

theorem readFront_numbered (typed : fc = 36 ∨ fc = 42 ∨ fc = 58) (buf : List UInt8) :
    readFront (fc :: buf) = numbered fc (fc :: buf) := by
  have other : ¬(fc = 45 ∨ fc = 43) := by
    rintro (rfl | rfl) <;> simp at typed
  simp [readFront, if_neg other, if_pos typed]

theorem readFront_truncate (whole : Whole front) (there : readFront buf = front rest) :
    ∃ taken, buf = taken ++ rest ∧
      ∀ other, other <+: rest → readFront (taken ++ other) = front other := by
  cases buf with
  | nil =>
    simp only [readFront] at there
    cases whole <;> simp at there
  | cons fc buf =>
    have owns : ∀ read : List UInt8 → Front,
        (∀ rest, readFront (fc :: rest) = read (fc :: rest)) → Owns read front (fc :: buf) rest →
          ∃ taken, fc :: buf = taken ++ rest ∧
            ∀ other, other <+: rest → readFront (taken ++ other) = front other := by
      rintro read same ⟨taken, bytes, head, cut⟩
      refine ⟨taken, bytes, fun other begins => ?_⟩
      obtain ⟨more, rfl⟩ : ∃ more, taken = fc :: more := by
        cases taken with
        | nil => simp at head
        | cons first more => exact ⟨more, by simpa using head⟩
      exact (same _).trans (cut other begins)
    by_cases simple : fc = 45 ∨ fc = 43
    · have same : ∀ rest, readFront (fc :: rest) = simpleString fc (fc :: rest) := by
        simp [readFront, simple]
      rw [same] at there
      cases whole with
      | reply parsed =>
        refine owns _ same (simpleString_truncate ?_ there)
        rintro rfl
        simp at simple
      | header count =>
        simp only [simpleString] at there
        split at there
        · split at there <;> simp at there
        · simp at there
    by_cases typed : fc = 36 ∨ fc = 42 ∨ fc = 58
    · rw [readFront_numbered typed] at there
      refine owns _ (readFront_numbered typed) (numbered_truncate whole ?_ there)
      rintro rfl
      simp at typed
    · simp only [readFront, if_neg simple, if_neg typed] at there
      cases whole <;> simp at there

end Truncation

section Cuts

variable {one : RedisReply → List UInt8 → Outcome RedisReply UInt8 Verdict}

/-- The bytes behind a complete reply may be cut off. -/
def Truncates {σ : Type} (call : List UInt8 → Outcome σ UInt8 Verdict) : Prop :=
  ∀ buf state rest, call buf = .done .ok state rest →
    ∃ taken, buf = taken ++ rest ∧
      ∀ other, other <+: rest → call (taken ++ other) = .done .ok state other

theorem consumeSubs_truncates (each : ∀ reply, Truncates (one reply)) (subs : List RedisReply) :
    Truncates (consumeSubs one subs) := by
  induction subs with
  | nil =>
    intro buf state rest there
    obtain ⟨rfl, rfl⟩ := there
    exact ⟨[], rfl, fun other _ => rfl⟩
  | cons sub subs ih =>
    intro buf state rest there
    cases out : one sub buf with
    | more later left => simp [consumeSubs, out] at there
    | done verdict later left =>
      cases verdict with
      | absolutelyWrong => simp [consumeSubs, out] at there
      | ok =>
        simp only [consumeSubs, out] at there
        obtain ⟨head, rfl, same⟩ := each sub buf later left out
        obtain ⟨inner, ended, rfl⟩ : ∃ inner, consumeSubs one subs left =
            .done .ok inner rest ∧ state = (later :: inner.1, 1 + inner.2) := by
          cases others : consumeSubs one subs left with
          | more inner rest => simp [others, prepend] at there
          | done verdict inner rest =>
            simp only [others, prepend, Outcome.done.injEq] at there
            obtain ⟨rfl, rfl, rfl⟩ := there
            exact ⟨inner, rfl, rfl⟩
        obtain ⟨tail, rfl, cut⟩ := ih left inner rest ended
        refine ⟨head ++ tail, by simp, fun other begins => ?_⟩
        have first := same (tail ++ other) (by simpa using begins)
        rw [append_assoc]
        simp [consumeSubs, first, cut other begins, prepend]

theorem arrayOf_truncates {call : List UInt8 → Outcome (List RedisReply × Nat) UInt8 Verdict}
    (truncates : Truncates call) (length : Int) (before behind : List RedisReply) :
    Truncates fun buf => arrayOf length before behind (call buf) := by
  intro buf state rest there
  obtain ⟨inner, ended, rfl⟩ : ∃ inner, call buf = .done .ok inner rest ∧
      state = .array length none (before ++ inner.1 ++ behind) := by
    cases out : call buf with
    | more inner rest => simp [out, arrayOf] at there
    | done verdict inner rest =>
      cases verdict with
      | absolutelyWrong => simp [out, arrayOf] at there
      | ok =>
        simp only [out, arrayOf, Outcome.done.injEq, true_and] at there
        obtain ⟨rfl, rfl⟩ := there
        exact ⟨inner, rfl, rfl⟩
  obtain ⟨taken, rfl, cut⟩ := truncates buf inner rest ended
  exact ⟨taken, rfl, fun other begins => by simp only [cut other begins, arrayOf]⟩

theorem consume_truncates (depth : Nat) (reply : RedisReply) : Truncates (consume depth reply) := by
  induction depth generalizing reply with
  | zero =>
    intro buf state rest there
    simp [consume] at there
  | succ depth ih =>
    intro buf state rest there
    cases held : reply.suspended with
    | some suspended =>
      simp only [consume_of_suspended held] at there ⊢
      exact arrayOf_truncates (consumeSubs_truncates ih _) _ _ _ _ state rest there
    | none =>
      simp only [consume_of_front held] at there ⊢
      cases front : readFront buf with
      | incomplete => simp [front] at there
      | wrong stored left => simp [front] at there
      | reply parsed left =>
        simp only [front, Outcome.done.injEq, true_and] at there
        obtain ⟨rfl, rfl⟩ := there
        obtain ⟨taken, rfl, cut⟩ := readFront_truncate (.reply parsed) front
        exact ⟨taken, rfl, fun other begins => by simp only [cut other begins]⟩
      | header count left =>
        simp only [front] at there
        obtain ⟨head, rfl, cut⟩ := readFront_truncate (.header count) front
        obtain ⟨tail, rfl, inner⟩ :=
          arrayOf_truncates (consumeSubs_truncates ih _) _ _ _ _ state rest there
        refine ⟨head ++ tail, by simp, fun other begins => ?_⟩
        rw [append_assoc, cut (tail ++ other) (by simpa using begins)]
        exact inner other begins

/-- The call refuses the input, but takes more bytes of its first part than of the whole. -/
def Overtakes {σ : Type} (call : List UInt8 → Outcome σ UInt8 Verdict) (buf : List UInt8) : Prop :=
  ∃ first second later rest, buf = first ++ second ∧
    call buf = .done .absolutelyWrong later rest ∧
      (call first).unread.length + second.length < rest.length

theorem unread_prepend (full : List RedisReply)
    (out : Outcome (List RedisReply × Nat) UInt8 Verdict) :
    (prepend full out).unread = out.unread := by
  cases out <;> rfl

theorem unread_arrayOf (length : Int) (before behind : List RedisReply)
    (out : Outcome (List RedisReply × Nat) UInt8 Verdict) :
    (arrayOf length before behind out).unread = out.unread := by
  cases out with
  | more state rest => rfl
  | done verdict state rest => cases verdict <;> rfl

theorem Left.unread_le {σ : Type} {measure : σ → Nat} {bound length : Nat}
    {out : Outcome σ UInt8 Verdict} (left : Left measure bound length out) :
    out.unread.length ≤ length := by
  cases out <;> exact left.2

section

variable (each : ∀ reply buf, Left RedisReply.depth (reply.depth + buf.length) buf.length
  (one reply buf))
include each

theorem unread_consumeSubs_cons (sub : RedisReply) (subs : List RedisReply) (buf : List UInt8) :
    (consumeSubs one (sub :: subs) buf).unread.length ≤ (one sub buf).unread.length := by
  cases out : one sub buf with
  | more later rest => simp [consumeSubs, out, Outcome.unread]
  | done verdict later rest =>
    cases verdict with
    | absolutelyWrong => simp [consumeSubs, out, Outcome.unread]
    | ok =>
      simp only [consumeSubs, out, unread_prepend]
      exact (left_consumeSubs each subs rest).unread_le

theorem consumeSubs_overtakes {every : RedisReply → List UInt8 → Bool}
    (truncates : ∀ reply, Truncates (one reply))
    (overtakes : ∀ reply buf, every reply buf = false → Overtakes (one reply) buf)
    (subs : List RedisReply) (buf : List UInt8)
    (bad : everyFrontOfSubs every one subs buf = false) :
    Overtakes (consumeSubs one subs) buf := by
  induction subs generalizing buf with
  | nil => simp [everyFrontOfSubs] at bad
  | cons sub subs ih =>
    simp only [everyFrontOfSubs, Bool.and_eq_false_iff] at bad
    obtain here | behind := bad
    · obtain ⟨first, second, later, rest, rfl, wrong, less⟩ := overtakes sub buf here
      refine ⟨first, second, (later :: subs, 0), rest, rfl, by simp [consumeSubs, wrong], ?_⟩
      have more := unread_consumeSubs_cons each sub subs first
      omega
    · cases out : one sub buf with
      | more later rest => simp [out] at behind
      | done verdict later left =>
        cases verdict with
        | absolutelyWrong => simp [out] at behind
        | ok =>
          simp only [out] at behind
          obtain ⟨first, second, state, rest, rfl, wrong, less⟩ := ih left behind
          obtain ⟨taken, rfl, cut⟩ := truncates sub buf later _ out
          refine ⟨taken ++ first, second, (later :: state.1, 1 + state.2), rest, by simp,
            by simp [consumeSubs, out, wrong, prepend], ?_⟩
          simp only [consumeSubs, cut first (prefix_append _ _), unread_prepend]
          exact less

end

variable {buf : List UInt8}

theorem arrayOf_overtakes {call : List UInt8 → Outcome (List RedisReply × Nat) UInt8 Verdict}
    (overtakes : Overtakes call buf) (length : Int) (before behind : List RedisReply) :
    Overtakes (fun buf => arrayOf length before behind (call buf)) buf := by
  obtain ⟨first, second, later, rest, bytes, wrong, less⟩ := overtakes
  refine ⟨first, second, .array length (some (before.length + later.2))
    (before ++ later.1 ++ behind), rest, bytes, by simp only [wrong, arrayOf], ?_⟩
  simpa only [unread_arrayOf] using less

theorem exists_of_ambiguous (bad : ambiguous buf = true) :
    ∃ fc rest, buf = fc :: 13 :: 10 :: rest ∧ (fc = 36 ∨ fc = 42 ∨ fc = 58) := by
  unfold ambiguous at bad
  split at bad
  · rename_i fc rest
    simp only [Bool.and_eq_true, Bool.or_eq_true, beq_iff_eq, or_assoc] at bad
    exact ⟨fc, rest, rfl, bad.1.1⟩
  · simp at bad

theorem unread_blank {reply : RedisReply} (held : reply.suspended = none) (depth : Nat) {fc : UInt8}
    (typed : fc = 36 ∨ fc = 42 ∨ fc = 58) {rest : List UInt8}
    (size : rest.length = if fc = 36 then 2 else 0) (unseen : ¬found (fc :: 13 :: 10 :: rest)) :
    (consume (depth + 1) reply (fc :: 13 :: 10 :: rest)).unread = [] := by
  have other : fc ≠ 13 := by
    rintro rfl
    simp at typed
  have short : (fc :: 13 :: 10 :: rest).length ≤ 31 := by
    simp only [length_cons, size]
    split <;> omega
  have zero : peekNumber (fc :: 13 :: 10 :: rest) = .parsed 0 3 := by
    rw [peekNumber_blank other, take_of_length_le short, if_neg unseen]
  rw [consume_of_front held, readFront_numbered typed]
  simp only [numbered, zero]
  obtain rfl | rfl | rfl := typed
  · obtain ⟨c, d, rfl⟩ := length_eq_two.mp size
    by_cases ended : [c, d] = [13, 10]
    · simp [bulkReply, ended, Outcome.unread]
    · simp [bulkReply, ended, Outcome.unread]
  · obtain rfl := length_eq_zero_iff.mp size
    simp [arrayReply, Outcome.unread]
  · obtain rfl := length_eq_zero_iff.mp size
    simp [Outcome.unread]

theorem ambiguous_overtakes {reply : RedisReply} (held : reply.suspended = none) (depth : Nat)
    (bad : ambiguous buf = true) : Overtakes (consume (depth + 1) reply) buf := by
  obtain ⟨fc, rest, rfl, typed⟩ := exists_of_ambiguous bad
  obtain ⟨later, unseen⟩ := (ambiguous_blank typed rest).mp bad
  have other : fc ≠ 13 := by
    rintro rfl
    simp at typed
  have refused : peekNumber (fc :: 13 :: 10 :: rest) = .invalid := by
    rw [peekNumber_blank other, if_pos later]
  have extra : (fc :: 13 :: 10 :: rest).take (if fc = 36 then 5 else 3) =
      fc :: 13 :: 10 :: rest.take (if fc = 36 then 2 else 0) := by
    split <;> rfl
  rw [extra] at unseen
  have enough : (if fc = 36 then 2 else 0) ≤ rest.length := by
    by_contra short
    rw [take_of_length_le (by omega)] at unseen
    refine unseen (found_longer ( take_prefix _ _) (by simp) later)
  refine ⟨fc :: 13 :: 10 :: rest.take (if fc = 36 then 2 else 0),
    rest.drop (if fc = 36 then 2 else 0), reply, fc :: 13 :: 10 :: rest, by simp, ?_, ?_⟩
  · rw [consume_of_front held, readFront_numbered typed]
    simp [numbered, refused]
  · rw [unread_blank held depth typed (by rw [length_take]; omega) unseen]
    simp only [length_nil, length_drop, length_cons]
    omega

theorem consume_overtakes (depth : Nat) (reply : RedisReply) (buf : List UInt8)
    (bad : everyFront unambiguous depth reply buf = false) :
    Overtakes (consume depth reply) buf := by
  induction depth generalizing reply buf with
  | zero => simp [everyFront] at bad
  | succ depth ih =>
    have elements := consumeSubs_overtakes (left_consume depth) (consume_truncates depth) ih
    cases held : reply.suspended with
    | some state =>
      obtain ⟨length, last, replies⟩ := state
      simp only [everyFront, held] at bad
      simp only [Overtakes, consume_of_suspended held]
      exact arrayOf_overtakes (elements _ buf bad) length _ _
    | none =>
      simp only [everyFront, held, unambiguous, Bool.and_eq_false_iff, Bool.not_eq_false'] at bad
      obtain here | inner := bad
      · exact ambiguous_overtakes held depth here
      · cases front : readFront buf with
        | header count left =>
          simp only [front] at inner
          obtain ⟨first, second, later, rest, rfl, wrong, less⟩ :=
            arrayOf_overtakes (elements _ left inner) (Int.bmod count 4294967296) [] []
          obtain ⟨taken, rfl, cut⟩ := readFront_truncate (.header count) front
          refine ⟨taken ++ first, second, later, rest, by simp, ?_, ?_⟩
          · rw [consume_of_front held, front]
            exact wrong
          · rw [consume_of_front held, cut first (prefix_append _ _)]
            exact less
        | _ => simp [front] at inner

end Cuts

theorem everyFrontOfSubs_and {one : RedisReply → List UInt8 → Outcome RedisReply UInt8 Verdict}
    {both first second : RedisReply → List UInt8 → Bool}
    (split : ∀ reply buf, both reply buf = (first reply buf && second reply buf))
    (subs : List RedisReply) (buf : List UInt8) :
    everyFrontOfSubs both one subs buf =
      (everyFrontOfSubs first one subs buf && everyFrontOfSubs second one subs buf) := by
  induction subs generalizing buf with
  | nil => rfl
  | cons sub subs ih =>
    simp only [everyFrontOfSubs, split]
    split
    · rw [ih]
      ac_rfl
    · simp

theorem everyFront_and (first second : List UInt8 → Bool) (depth : Nat) (reply : RedisReply)
    (buf : List UInt8) :
    everyFront (fun buf => first buf && second buf) depth reply buf =
      (everyFront first depth reply buf && everyFront second depth reply buf) := by
  induction depth generalizing reply buf with
  | zero => rfl
  | succ depth ih =>
    simp only [everyFront]
    split
    · exact everyFrontOfSubs_and ih _ _
    · split
      · rw [everyFrontOfSubs_and ih]
        ac_rfl
      · simp

theorem consumePartialIOBuf_resumes (bound : Nat) : Resumes consumePartialIOBuf fun reply buf =>
      everyFront clear bound reply buf = true ∧ reply.depth + buf.length < bound := by
  rintro reply first second ⟨good, inside⟩
  rw [length_append] at inside
  have here := consume_resumes bound reply first second good
  have left := left_consume bound reply first
  have part : consume bound reply first = consumePartialIOBuf reply first :=
    consume_eq_consumePartialIOBuf reply first (by omega)
  have whole := consume_eq_consumePartialIOBuf reply _ (by rw [length_append]; omega)
  rw [← part, ← whole]
  cases out : consume bound reply first with
  | more later unread =>
    rw [out] at here left
    have room : later.depth + (unread ++ second).length < bound := by
      have := left.1
      rw [length_append]
      omega
    exact ⟨here.1.trans (consume_eq_consumePartialIOBuf later _ room), here.2, room⟩
  | done verdict later unread =>
    rw [out] at here
    exact here

/-- Every front that is met when the whole input is read at once passes the test. -/
def meets (test : List UInt8 → Bool) (bytes : List UInt8) : Bool :=
  everyFront test (bytes.length + 1) .nil bytes

theorem unread_feed_pair (reply : RedisReply) (first second : List UInt8) :
    (feed consumePartialIOBuf reply [] [first, second]).unread.length ≤
      (consumePartialIOBuf reply first).unread.length + second.length := by
  simp only [feed, nil_append]
  cases consumePartialIOBuf reply first with
  | done verdict later unread => simp [Outcome.unread]
  | more later unread =>
    have left : (consumePartialIOBuf later (unread ++ second)).unread.length ≤
        (unread ++ second).length := (left_consume _ _ _).unread_le
    rw [length_append] at left
    cases out : consumePartialIOBuf later (unread ++ second) with
    | done verdict last rest =>
      simpa [feed, out, Outcome.unread] using left
    | more last rest =>
      simpa [feed, out, Outcome.unread] using left

/-- Within the limits, the result, the reply and the bytes taken are the same for all ways of
cutting the input into chunks exactly when no ambiguous number is met. -/
theorem feed_eq_iff (bytes : List UInt8) (limits : meets withinLimits bytes) :
    (∀ chunks, chunks ≠ [] → chunks.flatten = bytes →
      feed consumePartialIOBuf .nil [] chunks = consumePartialIOBuf .nil bytes) ↔
      meets unambiguous bytes := by
  constructor
  · intro same
    by_contra bad
    obtain ⟨first, second, later, rest, rfl, wrong, less⟩ :=
      consume_overtakes _ .nil bytes (Bool.eq_false_iff.mpr bad)
    have part : consume ((first ++ second).length + 1) .nil first =
        consumePartialIOBuf .nil first :=
      consume_eq_consumePartialIOBuf .nil first
        (by simp only [RedisReply.depth, length_append]; omega)
    have whole : consumePartialIOBuf .nil (first ++ second) =
      .done .absolutelyWrong later rest := by
      rw [← wrong]
      exact (consume_eq_consumePartialIOBuf .nil _ (by simp [RedisReply.depth])).symm
    have cut := same [first, second] (by simp) (by simp)
    have taken := unread_feed_pair .nil first second
    rw [cut, whole, ← part] at taken
    simp only [Outcome.unread] at taken less
    omega
  · intro plain chunks some flat
    have good : everyFront clear (bytes.length + 1) .nil bytes = true :=
      (everyFront_and unambiguous withinLimits (bytes.length + 1) .nil bytes).trans
        (Bool.and_eq_true_iff.mpr ⟨plain, limits⟩)
    have fed := feed_eq (consumePartialIOBuf_resumes (bytes.length + 1)) some .nil []
      ⟨by simpa [flat] using good, by simp [flat, RedisReply.depth]⟩
    simpa [flat] using fed

/-- An array of a number and a string: all ways of cutting it are the same. -/
theorem feed_eq_iff_array : ∃ bytes, meets withinLimits bytes ∧
    ∀ chunks, chunks ≠ [] → chunks.flatten = bytes →
      feed consumePartialIOBuf .nil [] chunks = consumePartialIOBuf .nil bytes :=
  ⟨[42, 50, 13, 10, 58, 55, 13, 10, 36, 49, 13, 10, 97, 13, 10], by decide +kernel,
    (feed_eq_iff _ (by decide +kernel)).mpr (by decide +kernel)⟩

/-- An integer without digits in front of a digit: refused as a whole, zero when it is cut. -/
theorem feed_ne_blank : feed consumePartialIOBuf .nil [] [[58, 13, 10], [53]] ≠
      consumePartialIOBuf .nil [58, 13, 10, 53] := by
  intro same
  exact absurd (congrArg (fun outcome => outcome.unread.length) same) (by decide +kernel)

end Redis
end McBrpc
