import Mathlib.Data.List.Basic

/-!
# Parsers fed with chunks

A parser is called on the bytes that have arrived and were not taken yet.  It resumes when a call on
the first part of an input loses nothing for the call on the whole input.  `Turn` is one round of a
loop over items, `consume` the loop.
-/

namespace Feeding

open List

variable {σ β ρ : Type*}

/-- What a call of the parser ends with, and the bytes it left. -/
inductive Outcome (σ β ρ : Type*) where
  | more (state : σ) (unread : List β)
  | done (result : ρ) (state : σ) (unread : List β)
deriving DecidableEq, Repr

def Outcome.unread : Outcome σ β ρ → List β
  | .more _ unread => unread
  | .done _ _ unread => unread

/-- Call the parser after the arrival of each chunk until it is done; later chunks stay unread. -/
def feed (call : σ → List β → Outcome σ β ρ) (state : σ) (unread : List β) :
    List (List β) → Outcome σ β ρ
  | [] => .more state unread
  | chunk :: chunks =>
    match call state (unread ++ chunk) with
    | .more state unread => feed call state unread chunks
    | .done result state unread => .done result state (unread ++ chunks.flatten)

/-- The arrival of one more chunk. -/
def resume (call : σ → List β → Outcome σ β ρ) : Outcome σ β ρ → List β → Outcome σ β ρ
  | .more state unread, chunk => call state (unread ++ chunk)
  | .done result state unread, chunk => .done result state (unread ++ chunk)

theorem foldl_resume (call : σ → List β → Outcome σ β ρ) (state : σ) (unread : List β)
    (chunks : List (List β)) :
    chunks.foldl (resume call) (.more state unread) = feed call state unread chunks := by
  have stays : ∀ result state unread chunks,
      foldl (resume call) (.done result state unread) chunks =
        .done result state (unread ++ chunks.flatten) := by
    intro result state unread chunks
    induction chunks generalizing unread with
    | nil => simp
    | cons chunk chunks ih => simp [resume, ih]
  induction chunks generalizing state unread with
  | nil => rfl
  | cons chunk chunks ih =>
    rw [foldl_cons, resume, feed]
    cases call state (unread ++ chunk) with
    | more later rest => exact ih later rest
    | done result later rest => exact stays result later rest chunks

/-- How the outcome for the first part of an input goes on to the outcome for the whole input: it is
the same, or a later call on a good input finds it. -/
def Continues (call : σ → List β → Outcome σ β ρ) (good : σ → List β → Prop) (second : List β)
    (whole : Outcome σ β ρ) : Outcome σ β ρ → Prop
  | .more later unread => whole = call later (unread ++ second) ∧ good later (unread ++ second)
  | .done result later unread => whole = .done result later (unread ++ second)

/-- Nothing is lost by a call on the first part of a good input. -/
def Resumes (call : σ → List β → Outcome σ β ρ) (good : σ → List β → Prop) : Prop :=
  ∀ state first second, good state (first ++ second) →
    Continues call good second (call state (first ++ second)) (call state first)

theorem feed_eq {call : σ → List β → Outcome σ β ρ} {good : σ → List β → Prop}
    (resumes : Resumes call good) {chunks : List (List β)} (some : chunks ≠ []) (state : σ)
    (unread : List β) (isGood : good state (unread ++ chunks.flatten)) :
    feed call state unread chunks = call state (unread ++ chunks.flatten) := by
  induction chunks generalizing state unread with
  | nil => exact absurd rfl some
  | cons chunk chunks ih =>
    have both := resumes state (unread ++ chunk) chunks.flatten (by simpa using isGood)
    simp only [feed, flatten_cons, ← append_assoc]
    cases out : call state (unread ++ chunk) with
    | done result later rest =>
      rw [out] at both
      exact both.symm
    | more later rest =>
      rw [out] at both
      obtain ⟨same, later_good⟩ := both
      rw [same]
      cases chunks with
      | nil =>
        rw [flatten_nil, append_nil, out, append_nil] at same
        simp [feed, ← same]
      | cons next chunks => exact ih (by simp) later rest later_good

inductive Turn (σ β ρ : Type*) where
  | again (state : σ) (unread : List β)
  | stop (outcome : Outcome σ β ρ)
deriving DecidableEq, Repr

/-- At most so many rounds. -/
def loop (turn : σ → List β → Turn σ β ρ) : Nat → σ → List β → Outcome σ β ρ
  | 0, state, unread => .more state unread
  | rounds + 1, state, unread =>
    match turn state unread with
    | .again state unread => loop turn rounds state unread
    | .stop outcome => outcome

/-- The loop; each round that does not stop takes at least one byte. -/
def consume (turn : σ → List β → Turn σ β ρ) (state : σ) (unread : List β) : Outcome σ β ρ :=
  loop turn (unread.length + 1) state unread

/-- Each round that does not stop takes a byte. -/
def Shrinks (turn : σ → List β → Turn σ β ρ) : Prop :=
  ∀ state unread later rest, turn state unread = .again later rest → rest.length < unread.length

variable {turn : σ → List β → Turn σ β ρ}

theorem loop_eq_of_length_lt (shrinks : Shrinks turn) {rounds : Nat} (state : σ)
    (unread : List β) (enough : unread.length < rounds) :
    loop turn rounds state unread = consume turn state unread := by
  induction rounds using Nat.strongRecOn generalizing state unread with
  | ind rounds ih =>
    obtain _ | rounds := rounds
    · exact absurd enough (Nat.not_lt_zero _)
    simp only [consume, loop]
    cases round : turn state unread with
    | stop out => rfl
    | again later rest =>
      have shorter := shrinks _ _ _ _ round
      have left := ih rounds (Nat.lt_succ_self _) later rest (by omega)
      obtain equal | less := Nat.eq_or_lt_of_le (Nat.le_of_lt_succ enough)
      · simp [equal]
      · exact left.trans (ih _ (by omega) later rest shorter).symm

theorem consume_again (shrinks : Shrinks turn) {state later : σ} {unread rest : List β}
    (round : turn state unread = .again later rest) :
    consume turn state unread = consume turn later rest := by
  rw [consume, loop, round]
  exact loop_eq_of_length_lt shrinks later rest (shrinks _ _ _ _ round)

theorem consume_stop {state : σ} {unread : List β} {outcome : Outcome σ β ρ}
    (round : turn state unread = .stop outcome) : consume turn state unread = outcome := by
  rw [consume, loop, round]

/-- A round on the first part of a good input asks for more bytes and changes nothing, or is the
round on the whole input. -/
def TurnResumes (turn : σ → List β → Turn σ β ρ) (good : σ → List β → Prop) : Prop :=
  ∀ state first second, good state (first ++ second) →
    match turn state first with
    | .again later rest =>
      turn state (first ++ second) = .again later (rest ++ second) ∧ good later (rest ++ second)
    | .stop (.more later rest) => later = state ∧ rest = first
    | .stop (.done result later rest) =>
      turn state (first ++ second) = .stop (.done result later (rest ++ second))

theorem consume_resumes {good : σ → List β → Prop} (shrinks : Shrinks turn)
    (resumes : TurnResumes turn good) : Resumes (consume turn) good := by
  intro state first
  induction length : first.length using Nat.strongRecOn generalizing state first with
  | ind n ih =>
    intro second isGood
    have here := resumes state first second isGood
    cases round : turn state first with
    | stop out =>
      rw [consume_stop round]
      cases out with
      | more later rest =>
        simp only [round] at here
        obtain ⟨rfl, rfl⟩ := here
        exact ⟨rfl, isGood⟩
      | done result later rest =>
        simp only [round] at here
        exact consume_stop here
    | again later rest =>
      simp only [round] at here
      obtain ⟨whole, later_good⟩ := here
      rw [consume_again shrinks round, consume_again shrinks whole]
      exact ih _ (length ▸ shrinks _ _ _ _ round) later rest rfl second later_good

end Feeding
