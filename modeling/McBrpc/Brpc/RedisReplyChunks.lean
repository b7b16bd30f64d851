import McBrpc.Brpc.RedisReply

/-!
# Redis replies that arrive in chunks

A call on the bytes that have arrived decides as the call on all bytes does, except that an empty
number is refused when the copied bytes behind it hold a number (`ambiguous`), and beyond the limits
of `withinLimits`.
-/

namespace McBrpc

open List
namespace Redis

open CNumber Feeding

/-- The copy of the first bytes holds a number behind the type byte. -/
def found (intbuf : List UInt8) : Bool := (strtoll (intbuf.drop 1)).2 != 0

/-- An empty number with another one behind it that is not seen when only the bytes taken for an
empty number have arrived. -/
def ambiguous (buf : List UInt8) : Bool :=
  match buf with
  | fc :: 13 :: 10 :: _ =>
    (fc == 36 || fc == 42 || fc == 58) && found (buf.take 31) &&
      !found (buf.take (if fc = 36 then 5 else 3))
  | _ => false

/-- The count of an array fits an `int`, and the end of a simple string comes in time. -/
def withinLimits (buf : List UInt8) : Bool :=
  match readFront buf with
  | .header count _ => count < 2147483648
  | _ =>
    match buf.head?, findCrlf buf with
    | some fc, some pos => !(fc == 45 || fc == 43) || pos < 4294967295
    | _, _ => true

/-- The same front with more bytes behind it. -/
def Front.extend (tail : List UInt8) : Front → Front
  | .incomplete => .incomplete
  | .wrong stored rest => .wrong stored (rest ++ tail)
  | .reply parsed rest => .reply parsed (rest ++ tail)
  | .header count rest => .header count (rest ++ tail)

section Fronts

variable {buf tail : List UInt8}

theorem findCrlf_late (absent : findCrlf buf = none) {pos : Nat}
    (there : findCrlf (buf ++ tail) = some pos) : buf.length ≤ pos + 1 := by
  induction buf generalizing pos with
  | nil => simp
  | cons c buf ih =>
    by_cases here : c = 13 ∧ buf.head? = some 10
    · simp [findCrlf, here] at absent
    · simp only [findCrlf, if_neg here, Option.map_eq_none_iff] at absent
      cases buf with
      | nil => simp
      | cons d buf =>
        rw [cons_append, findCrlf, if_neg (by simpa using here)] at there
        obtain ⟨later, behind, rfl⟩ := Option.map_eq_some_iff.mp there
        have := ih absent behind
        simp only [length_cons] at this ⊢
        omega

theorem simpleString_append (fc : UInt8)
    (inTime : ∀ pos, findCrlf (buf ++ tail) = some pos → pos < 4294967295) :
    simpleString fc buf = .incomplete ∨
      simpleString fc (buf ++ tail) = (simpleString fc buf).extend tail := by
  cases line : findCrlf buf with
  | some pos =>
    obtain ⟨text, behind, rfl, rfl, -⟩ := findCrlf_eq_some line
    simp only [simpleString, findCrlf_append line tail, line, Front.extend]
    simp [drop_append]
  | none =>
    by_cases long : 4294967295 < buf.length
    · right
      have nowhere : findCrlf (buf ++ tail) = none := by
        cases there : findCrlf (buf ++ tail) with
        | none => rfl
        | some pos =>
          have late := findCrlf_late line there
          have early := inTime pos there
          omega
      have longer : 4294967295 < (buf ++ tail).length := by
        rw [length_append]
        omega
      simp only [simpleString, line, nowhere, if_pos long, if_pos longer, Front.extend]
    · left
      simp only [simpleString, line, if_neg long]

variable {size : Nat} {fc : UInt8}

theorem bulkReply_append (len : Int) (inside : size ≤ buf.length) :
    bulkReply buf len size = .incomplete ∨
      bulkReply (buf ++ tail) len size = (bulkReply buf len size).extend tail := by
  by_cases negative : len < 0
  · simp [bulkReply, negative, Front.extend, drop_append_of_le_length inside]
  by_cases long : 4294967295 < len
  · simp [bulkReply, negative, long, Front.extend]
  by_cases short : buf.length < size + len.toNat + 2
  · simp [bulkReply, negative, long, short]
  right
  have enough : ¬(buf ++ tail).length < size + len.toNat + 2 := by
    rw [length_append]
    omega
  simp only [bulkReply, if_neg negative, if_neg long, if_neg short, if_neg enough]
  rw [take_drop_append (by omega), take_drop_append (by omega), drop_append_of_le_length (by omega)]
  split <;> rfl

theorem arrayReply_append (count : Int) (inside : size ≤ buf.length) :
    arrayReply (buf ++ tail) count size = (arrayReply buf count size).extend tail := by
  simp only [arrayReply, drop_append_of_le_length inside]
  split_ifs <;> rfl

theorem found_longer {first second : List UInt8} (begins : first <+: second)
    (typed : first ≠ []) (seen : found first) : found second := by
  obtain ⟨more, rfl⟩ := begins
  simp only [found, bne_iff_ne] at seen ⊢
  rw [drop_append_of_le_length (length_pos_iff.mpr typed)]
  exact strtoll_found_append more seen

theorem peekNumber_blank (typed : fc ≠ 13) (rest : List UInt8) :
    peekNumber (fc :: 13 :: 10 :: rest) =
      if found ((fc :: 13 :: 10 :: rest).take 31) then .invalid else .parsed 0 3 := by
  have framed : Framed fc [] := by
    refine ⟨?_, by simp⟩
    simp [findCrlf, typed]
  have read := peekNumber_framed framed rest
  simp only [cons_append, nil_append] at read
  rw [read]
  simp only [readLine, found, take_succ_cons, drop_succ_cons, drop_zero,
    nil_append, length_nil, Nat.sub_zero, bne_iff_ne]
  by_cases none : (strtoll (13 :: 10 :: rest.take 28)).2 = 0
  · simp [strtoll_of_used_eq_zero none]
  · simp [none]

theorem numbered_of_same {buf : List UInt8} (typed : fc ≠ 13)
    (same : peekNumber (fc :: buf ++ tail) = peekNumber (fc :: buf)) :
    numbered fc (fc :: buf) = .incomplete ∨
      numbered fc (fc :: buf ++ tail) = (numbered fc (fc :: buf)).extend tail := by
  simp only [numbered, same]
  cases number : peekNumber (fc :: buf) with
  | incomplete => exact .inl rfl
  | invalid => exact .inr rfl
  | parsed value size =>
    have inside := (peekNumber_size typed number).2
    simp only
    by_cases integer : fc = 58
    · rw [if_pos integer, drop_append_of_le_length inside, if_pos integer]
      exact .inr rfl
    rw [if_neg integer, if_neg integer]
    by_cases bulk : fc = 36
    · rw [if_pos bulk, if_pos bulk]
      exact bulkReply_append value inside
    · rw [if_neg bulk, if_neg bulk]
      exact .inr (arrayReply_append value inside)

theorem take_prefix_take {first whole : List UInt8} (begins : first <+: whole) (short : size ≤ 31)
    : first.take size <+: whole.take 31 := by
  refine prefix_of_prefix_length_le (( take_prefix _ _).trans begins)
    ( take_prefix _ _) ?_
  have := begins.length_le
  simp only [length_take]
  omega

theorem ambiguous_blank (typed : fc = 36 ∨ fc = 42 ∨ fc = 58) (rest : List UInt8) :
    ambiguous (fc :: 13 :: 10 :: rest) = true ↔ found ((fc :: 13 :: 10 :: rest).take 31) ∧
      ¬found ((fc :: 13 :: 10 :: rest).take (if fc = 36 then 5 else 3)) := by
  have kind : (fc == 36 || fc == 42 || fc == 58) = true := by simpa [or_assoc] using typed
  simp [ambiguous, kind]

/-- A front with a number is the same when more bytes arrive, unless the number is ambiguous. -/
theorem numbered_append {buf : List UInt8} (typed : fc = 36 ∨ fc = 42 ∨ fc = 58)
    (plain : ambiguous (fc :: buf ++ tail) = false) :
    numbered fc (fc :: buf) = .incomplete ∨
      numbered fc (fc :: buf ++ tail) = (numbered fc (fc :: buf)).extend tail := by
  have other : fc ≠ 13 := by
    rintro rfl
    simp at typed
  by_cases full : peekNumber (fc :: buf) = .incomplete
  · simp [numbered, full]
  obtain ⟨line, behind, bytes, framed⟩ := exists_framed other full
  by_cases text : line ≠ []
  · refine numbered_of_same other ?_
    rw [bytes, append_assoc, cons_append, cons_append]
    exact peekNumber_tail framed text _ _
  obtain rfl : line = [] := not_not.mp text
  obtain rfl : buf = 13 :: 10 :: behind := by simpa using bytes
  have here := peekNumber_blank other behind
  have whole := peekNumber_blank other (behind ++ tail)
  by_cases seen : found ((fc :: 13 :: 10 :: behind).take 31)
  · have later : found ((fc :: 13 :: 10 :: behind ++ tail).take 31) :=
      found_longer (take_prefix_take (prefix_append _ _) (le_refl 31)) (by simp) seen
    refine numbered_of_same other ?_
    rw [here, if_pos seen]
    exact whole.trans (if_pos later)
  by_cases later : found ((fc :: 13 :: 10 :: behind ++ tail).take 31)
  · -- the number is among the bytes an empty string needs, and not all of them are there
    left
    have early : found ((fc :: 13 :: 10 :: behind ++ tail).take (if fc = 36 then 5 else 3)) := by
      by_contra unseen
      have both := (ambiguous_blank typed (behind ++ tail)).mpr ⟨later, unseen⟩
      exact absurd (plain.symm.trans both) (by decide)
    by_cases bulk : fc = 36
    · have short : behind.length < 2 := by
        by_contra enough
        refine seen (found_longer ?_ (by simp [bulk]) early)
        have inside : 5 ≤ (fc :: 13 :: 10 :: behind).length := by
          simp only [length_cons]
          omega
        rw [if_pos bulk, take_append_of_le_length inside]
        exact take_prefix_take prefix_rfl (by decide)
      rw [if_neg seen] at here
      have missing : (fc :: 13 :: 10 :: behind).length < 3 + (0 : Int).toNat + 2 := by
        simp only [length_cons, Int.toNat_zero]
        omega
      subst bulk
      simp only [numbered, here, bulkReply, if_pos missing]
      rfl
    · rw [if_neg bulk] at early
      exact absurd early (by simp [found, strtoll, isspace])
  · refine numbered_of_same other ?_
    rw [here, if_neg seen]
    exact whole.trans (if_neg later)

theorem readFront_append (plain : ambiguous (buf ++ tail) = false)
    (limits : withinLimits (buf ++ tail)) :
    readFront buf = .incomplete ∨ readFront (buf ++ tail) = (readFront buf).extend tail := by
  cases buf with
  | nil => exact .inl rfl
  | cons fc buf =>
    by_cases simple : fc = 45 ∨ fc = 43
    · have inTime : ∀ pos, findCrlf (fc :: buf ++ tail) = some pos → pos < 4294967295 := by
        intro pos there
        simp only [cons_append] at there limits
        simp only [withinLimits, readFront, if_pos simple, simpleString, there] at limits
        obtain other | early : (¬fc = 45 ∧ ¬fc = 43) ∨ pos < 4294967295 := by
          simpa using limits
        · exact absurd simple (by simpa using other)
        · exact early
      simpa only [readFront, cons_append, if_pos simple] using simpleString_append fc inTime
    by_cases typed : fc = 36 ∨ fc = 42 ∨ fc = 58
    · simpa only [readFront, cons_append, if_neg simple, if_pos typed] using
        numbered_append typed plain
    · right
      simp [readFront, simple, typed, Front.extend]

end Fronts

/-- The fronts met by the loop over elements all pass the test. -/
def everyFrontOfSubs (every : RedisReply → List UInt8 → Bool)
    (one : RedisReply → List UInt8 → Outcome RedisReply UInt8 Verdict) :
    List RedisReply → List UInt8 → Bool
  | [], _ => true
  | sub :: subs, buf =>
    every sub buf &&
      match one sub buf with
      | .done .ok _ rest => everyFrontOfSubs every one subs rest
      | _ => true

/-- The fronts a call meets all pass the test. -/
def everyFront (test : List UInt8 → Bool) : Nat → RedisReply → List UInt8 → Bool
  | 0, _, _ => true
  | depth + 1, reply, buf =>
    match reply.suspended with
    | some (length, lastIndex, replies) =>
      everyFrontOfSubs (everyFront test depth) (consume depth)
        (resumed length lastIndex replies) buf
    | none =>
      test buf &&
        match readFront buf with
        | .header count rest =>
          everyFrontOfSubs (everyFront test depth) (consume depth)
            (List.replicate count .nil) rest
        | _ => true

variable {one : RedisReply → List UInt8 → Outcome RedisReply UInt8 Verdict}
  {every : RedisReply → List UInt8 → Bool}

theorem prepend_nil (outcome : Outcome (List RedisReply × Nat) UInt8 Verdict) :
    prepend [] outcome = outcome := by
  cases outcome <;> simp [prepend]

theorem prepend_prepend (first second : List RedisReply)
    (outcome : Outcome (List RedisReply × Nat) UInt8 Verdict) :
    prepend first (prepend second outcome) = prepend (first ++ second) outcome := by
  cases outcome <;> simp [prepend, Nat.add_assoc]

/-- The loop on the first part of the input and then on the rest is the loop on the whole. -/
theorem consumeSubs_resumes (resumes : Resumes one fun reply buf => every reply buf = true)
    (subs : List RedisReply) (first second : List UInt8)
    (good : everyFrontOfSubs every one subs (first ++ second)) :
    match consumeSubs one subs first with
    | .more (later, parsed) rest =>
      consumeSubs one subs (first ++ second) =
          prepend (later.take parsed) (consumeSubs one (later.drop parsed) (rest ++ second)) ∧
        everyFrontOfSubs every one (later.drop parsed) (rest ++ second) ∧
          later.length = subs.length ∧ parsed < later.length
    | .done verdict state rest =>
      consumeSubs one subs (first ++ second) = .done verdict state (rest ++ second) := by
  induction subs generalizing first with
  | nil => rfl
  | cons sub subs ih =>
    simp only [everyFrontOfSubs, Bool.and_eq_true] at good
    have here := resumes sub first second good.1
    cases out : one sub first with
    | more later rest =>
      rw [out] at here
      obtain ⟨same, later_good⟩ := here
      simp only [consumeSubs, out, take_zero, drop_zero]
      refine ⟨?_, ?_, by simp, by simp⟩
      · simp [same, prepend_nil]
      · simp only [everyFrontOfSubs, Bool.and_eq_true]
        rw [same] at good
        exact ⟨later_good, good.2⟩
    | done verdict later rest =>
      rw [out, Continues] at here
      cases verdict with
      | absolutelyWrong => simp only [consumeSubs, out, here]
      | ok =>
        rw [here] at good
        have tail := ih rest good.2
        simp only [consumeSubs, out, here]
        cases others : consumeSubs one subs rest with
        | more state left =>
          obtain ⟨laters, parsed⟩ := state
          rw [others] at tail
          obtain ⟨same, later_good, size, inside⟩ := tail
          have front : prepend [later] (.more (laters, parsed) left) =
              .more (later :: laters, parsed + 1) left := by
            simp [prepend, Nat.add_comm]
          rw [front]
          simp only [take_succ_cons, drop_succ_cons]
          refine ⟨?_, later_good, by simp [size], by simpa using inside⟩
          rw [same, prepend_prepend, singleton_append]
        | done verdict state left =>
          rw [others] at tail
          rw [tail]
          rfl

theorem arrayOf_prepend (length : Int) (before behind full : List RedisReply)
    (outcome : Outcome (List RedisReply × Nat) UInt8 Verdict) :
    arrayOf length before behind (prepend full outcome) =
      arrayOf length (before ++ full) behind outcome := by
  cases outcome with
  | more state rest => simp [prepend, arrayOf, Nat.add_assoc]
  | done verdict state rest => cases verdict <;> simp [prepend, arrayOf, Nat.add_assoc]

/-- The loop over the given elements is the one of a suspended array: it ends with the number of
elements or with the last element. -/
structure Loops (length : Int) (before behind : List RedisReply) (size : Nat) : Prop where
  reaches : size ≤ (length - before.length).toNat
  last : size = (length - before.length).toNat ∨ behind = []

variable {length : Int} {before behind subs : List RedisReply} {parsed : Nat}

theorem loops_resumed {lastIndex : Nat} {replies : List RedisReply}
    (some : 0 < (resumed length lastIndex replies).length) :
    Loops length (replies.take lastIndex)
      (replies.drop (lastIndex + (resumed length lastIndex replies).length))
      (resumed length lastIndex replies).length := by
  simp only [resumed, length_take, length_drop] at some ⊢
  have index : min lastIndex replies.length = lastIndex := by omega
  refine ⟨?_, ?_⟩
  · rw [length_take, index]
    omega
  · rw [length_take, index, drop_eq_nil_iff]
    omega

theorem resumed_suspended (loops : Loops length before behind subs.length)
    (inside : parsed < subs.length) :
    resumed length (before.length + parsed) (before ++ subs ++ behind) = subs.drop parsed := by
  have reaches := loops.reaches
  have dropped : (before ++ subs ++ behind).drop (before.length + parsed) =
      subs.drop parsed ++ behind := by
    rw [append_assoc, ← drop_drop, drop_left, drop_append_of_le_length inside.le]
  rw [resumed, dropped]
  obtain ends | rfl := loops.last
  · refine take_left' ?_
    rw [length_drop]
    omega
  · rw [append_nil]
    refine take_of_length_le ?_
    rw [length_drop]
    omega

theorem take_suspended (inside : parsed < subs.length) :
    (before ++ subs ++ behind).take (before.length + parsed) = before ++ subs.take parsed := by
  rw [append_assoc, take_length_add_append, take_append_of_le_length inside.le]

theorem drop_suspended (inside : parsed < subs.length) :
    (before ++ subs ++ behind).drop (before.length + parsed + (subs.drop parsed).length) =
      behind := by
  refine drop_left' ?_
  rw [length_append, length_drop]
  omega

theorem consume_suspended {depth : Nat} (loops : Loops length before behind subs.length)
    (inside : parsed < subs.length) (buf : List UInt8) :
    consume (depth + 1)
        (.array length (some (before.length + parsed)) (before ++ subs ++ behind)) buf =
      arrayOf length (before ++ subs.take parsed) behind
        (consumeSubs (consume depth) (subs.drop parsed) buf) := by
  rw [consume_of_suspended rfl, resumed_suspended loops inside, take_suspended inside,
    drop_suspended inside]

theorem array_resumes {test : List UInt8 → Bool} {depth : Nat}
    (resumes : Resumes (consume depth) fun reply buf => everyFront test depth reply buf = true)
    {first second : List UInt8} (loops : 0 < subs.length → Loops length before behind subs.length)
    (good : everyFrontOfSubs (everyFront test depth) (consume depth) subs (first ++ second)) :
    Continues (consume (depth + 1)) (fun reply buf => everyFront test (depth + 1) reply buf = true)
      second (arrayOf length before behind (consumeSubs (consume depth) subs (first ++ second)))
      (arrayOf length before behind (consumeSubs (consume depth) subs first)) := by
  have elements := consumeSubs_resumes resumes subs first second good
  cases out : consumeSubs (consume depth) subs first with
  | more state rest =>
    rw [out] at elements
    obtain ⟨same, later_good, size, inside⟩ := elements
    have loops := loops (by omega)
    rw [← size] at loops
    refine ⟨?_, ?_⟩
    · rw [consume_suspended loops inside, same, arrayOf_prepend]
    · simp only [everyFront, RedisReply.suspended]
      rw [resumed_suspended loops inside]
      exact later_good
  | done verdict state rest =>
    rw [out] at elements
    rw [elements]
    cases verdict <;> rfl

/-- The number at the front, if there is one, is not ambiguous. -/
def unambiguous (buf : List UInt8) : Bool := !ambiguous buf

/-- Nothing ambiguous, and within the limits. -/
def clear (buf : List UInt8) : Bool := unambiguous buf && withinLimits buf

theorem consume_resumes (depth : Nat) :
    Resumes (consume depth) fun reply buf => everyFront clear depth reply buf = true := by
  induction depth with
  | zero => exact fun reply first second good => ⟨rfl, rfl⟩
  | succ depth ih =>
    intro reply first second good
    cases held : reply.suspended with
    | some state =>
      simp only [everyFront, held] at good
      have array := array_resumes ih loops_resumed good
      rw [consume_of_suspended held, consume_of_suspended held]
      exact array
    | none =>
      have whole := good
      simp only [everyFront, held, clear, unambiguous, Bool.and_eq_true, Bool.not_eq_true'] at good
      obtain ⟨⟨plain, limits⟩, inner⟩ := good
      have front_append := readFront_append plain limits
      rw [consume_of_front held depth first]
      cases front : readFront first with
      | incomplete => exact ⟨rfl, whole⟩
      | wrong stored rest =>
        rw [front] at front_append
        rw [consume_of_front held depth (first ++ second), front_append.resolve_left (by simp)]
        rfl
      | reply parsed rest =>
        rw [front] at front_append
        rw [consume_of_front held depth (first ++ second), front_append.resolve_left (by simp)]
        rfl
      | header count rest =>
        rw [front] at front_append
        have same : readFront (first ++ second) = .header count (rest ++ second) :=
          front_append.resolve_left (by simp)
        have small : count < 2147483648 := by
          simpa [withinLimits, same] using limits
        have narrow : Int.bmod count 4294967296 = count := by
          rw [Int.bmod_def]
          omega
        have loops : Loops (Int.bmod count 4294967296) [] []
            (List.replicate count RedisReply.nil).length := by
          rw [narrow]
          exact ⟨by simp, .inr rfl⟩
        simp only [same] at inner
        rw [consume_of_front held depth (first ++ second), same]
        exact array_resumes ih (fun _ => loops) inner

end Redis
end McBrpc
