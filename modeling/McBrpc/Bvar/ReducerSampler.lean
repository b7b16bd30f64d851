import Mathlib.Algebra.BigOperators.Group.List.Basic
import Mathlib.Algebra.Group.TypeTags.Basic
import Mathlib.Algebra.Order.Group.Int
import Mathlib.Data.List.Infix

/-!
# Windows of samples

`ReducerSampler` keeps the latest samples of a reducer in a ring.  The operator is that of a
commutative monoid.  If it can be inverted a sample is what was accumulated so far; otherwise the
reducer is reset and a sample is what one interval between two ticks made.
-/

namespace McBrpc.Bvar

open List Nat

structure BoundedQueue (α : Type*) where
  items : Nat → α
  start : Nat
  count : Nat
  cap : Nat
  count_le : count ≤ cap
  start_lt : 0 < cap → start < cap

namespace BoundedQueue

variable {α : Type*} (q : BoundedQueue α)

/-- The place of `bottom(index)`. -/
def slot (index : Nat) : Nat := (q.start + q.count - index - 1) % q.cap

def bottom (index : Nat) : Option Nat := if index < q.count then some (q.slot index) else none

def elimPush (item : α) : BoundedQueue α where
  items := Function.update q.items
    (if q.count < q.cap then (q.start + q.count) % q.cap else q.start) item
  start := if q.count < q.cap then q.start else (q.start + 1) % q.cap
  count := if q.count < q.cap then q.count + 1 else q.count
  cap := q.cap
  count_le := by
    have := q.count_le
    split <;> omega
  start_lt positive := by
    split
    · exact q.start_lt positive
    · exact mod_lt _ positive

/-- A new queue with the first items of this one, which are popped and pushed one by one. -/
def moved (cap : Nat) : Nat → BoundedQueue α
  | 0 => ⟨q.items, 0, 0, cap, Nat.zero_le cap, id⟩
  | popped + 1 => (moved cap popped).elimPush (q.items ((q.start + popped) % q.cap))

theorem mod_of_lt {off cap : Nat} (small : off < 2 * cap) :
    off % cap = if off < cap then off else off - cap := by
  split
  · next below => exact mod_eq_of_lt below
  · next above => rw [mod_eq_sub_mod (by omega), mod_eq_of_lt (by omega)]

theorem slot_eq {index : Nat} (inside : index < q.count) :
    q.slot index = if q.start + q.count - index - 1 < q.cap then q.start + q.count - index - 1
      else q.start + q.count - index - 1 - q.cap := by
  have := q.count_le
  have := q.start_lt (by omega)
  exact mod_of_lt (by omega)

theorem slot_inj {left right : Nat} (left_inside : left < q.count) (right_inside : right < q.count)
    (same : q.slot left = q.slot right) : left = right := by
  have := q.count_le
  have := q.start_lt (by omega)
  rw [q.slot_eq left_inside, q.slot_eq right_inside] at same
  split_ifs at same <;> omega

theorem items_slot_elimPush (item : α) (pos : 0 < q.cap) {index : Nat}
    (inside : index < (q.elimPush item).count) :
    (q.elimPush item).items ((q.elimPush item).slot index) =
      if index = 0 then item else q.items (q.slot (index - 1)) := by
  have := q.count_le
  have := q.start_lt pos
  have at_item := slot_eq _ inside
  by_cases room : q.count < q.cap
  all_goals
    simp (disch := omega) only [elimPush, mod_of_lt, room, if_true, if_false] at inside at_item ⊢
    rw [at_item, Function.update_apply]
    by_cases first : index = 0
    · rw [if_pos first, if_pos (by split_ifs <;> omega)]
    · rw [if_neg first, q.slot_eq (by omega), if_neg (by split_ifs <;> omega)]
      exact congrArg q.items (by split_ifs <;> omega)

theorem cap_moved {cap : Nat} (popped : Nat) : (q.moved cap popped).cap = cap := by
  induction popped with
  | zero => rfl
  | succ popped ih => exact ih

theorem moved_eq {cap popped : Nat} (room : popped ≤ cap) :
    (q.moved cap popped).count = popped ∧ ∀ index < popped,
      (q.moved cap popped).items ((q.moved cap popped).slot index) =
        q.items ((q.start + popped - index - 1) % q.cap) := by
  induction popped with
  | zero => exact ⟨rfl, fun index inside => absurd inside (not_lt_zero index)⟩
  | succ popped ih =>
    have ⟨count_eq, kept⟩ := ih (by omega)
    have pushed_count : (q.moved cap (popped + 1)).count = popped + 1 := by
      simp only [moved, elimPush, count_eq, cap_moved, if_pos (lt_of_succ_le room)]
    refine ⟨pushed_count, fun index inside => ?_⟩
    have pushed := (q.moved cap popped).items_slot_elimPush
      (q.items ((q.start + popped) % q.cap)) (by rw [cap_moved]; omega) (pushed_count ▸ inside)
    rw [moved, pushed]
    cases index with
    | zero => rfl
    | succ index => exact (kept index (by omega)).trans (congrArg _ (congrArg (· % _) (by omega)))

end BoundedQueue

structure Sample (T : Type*) where
  data : T
  timeUs : Int

/-- `ReducerSampler` with the value of its reducer. -/
structure ReducerSampler (T : Type*) where
  value : T
  windowSize : Nat
  q : BoundedQueue (Sample T)

namespace ReducerSampler

variable {T : Type*} (s : ReducerSampler T)

def maxSecondsLimit : Int := 3600

def setWindowSize (windowSize : Int) : ReducerSampler T :=
  if windowSize ≤ 0 ∨ maxSecondsLimit < windowSize then s
  else { s with windowSize := max s.windowSize windowSize.toNat }

/-- The queue that `take_sample` has made ready. -/
def readyQueue : BoundedQueue (Sample T) :=
  if s.q.cap < s.windowSize + 1 then
    s.q.moved (max (s.q.cap * 2) (s.windowSize + 1)) s.q.count
  else s.q

def oldest (windowSize : Int) : Nat := (s.q.bottom windowSize.toNat).getD s.q.start

/-- The samples at `bottom(1)`, `bottom(2)` and so on, up to the oldest one of a window. -/
def walk (windowSize : Int) : List T :=
  (((range' 1 (s.q.count - 1)).map s.q.slot).takeWhile (· ≠ s.oldest windowSize)).map
    fun e => (s.q.items e).data

def getSamples (windowSize : Int) : List T :=
  if windowSize ≤ 0 ∨ s.q.count ≤ 1 then [] else s.walk windowSize

section Queue

variable {s}

theorem lt_cap_readyQueue : s.windowSize < s.readyQueue.cap := by
  unfold readyQueue
  split
  · rw [BoundedQueue.cap_moved]
    omega
  · omega

theorem readyQueue_eq : s.readyQueue.count = s.q.count ∧ ∀ index < s.q.count,
    s.readyQueue.items (s.readyQueue.slot index) = s.q.items (s.q.slot index) := by
  have := s.q.count_le
  unfold readyQueue
  split
  · exact s.q.moved_eq (by omega)
  · exact ⟨rfl, fun _ _ => rfl⟩

variable {w : Int} (several : 1 < s.q.count)
include several

theorem oldest_eq : s.oldest w = s.q.slot (min w.toNat (s.q.count - 1)) := by
  have top_eq : s.q.slot (s.q.count - 1) = s.q.start := by
    have := s.q.count_le
    have := s.q.start_lt (by omega)
    rw [s.q.slot_eq (by omega), if_pos (by omega)]
    omega
  unfold oldest BoundedQueue.bottom
  split
  · rw [min_eq_left (by omega)]
    rfl
  · rw [min_eq_right (by omega), top_eq]
    rfl

/-- The walk passes the places behind the latest sample one by one and stops at the oldest. -/
theorem walk_eq (pos : 0 < w) : s.walk w = (range' 1 (min w.toNat (s.q.count - 1) - 1)).map
      fun index => (s.q.items (s.q.slot index)).data := by
  generalize size_eq : min w.toNat (s.q.count - 1) = size
  obtain ⟨beyond, split_eq⟩ : ∃ beyond : List Nat, range' 1 (s.q.count - 1) =
      range' 1 (size - 1) ++ size :: beyond := by
    rw [show s.q.count - 1 = size - 1 + (s.q.count - 1 - size + 1) by omega, ← range'_append_1,
      show 1 + (size - 1) = size by omega, range'_succ]
    exact ⟨_, rfl⟩
  unfold walk
  rw [oldest_eq several, size_eq, split_eq, map_append, map_cons, takeWhile_append_of_pos,
    takeWhile_cons_of_neg (by simp), append_nil, map_map]
  · rfl
  · intro e e_mem
    obtain ⟨index, index_mem, rfl⟩ := mem_map.mp e_mem
    have := mem_range'_1.mp index_mem
    refine decide_eq_true fun same => ?_
    have := s.q.slot_inj (by omega) (by omega) same
    omega

end Queue

variable [CommMonoid T] (invOp : Option (T → T → T))

/-- `take_sample`.  `VoidOp` in the place of the inverse operator is `none`. -/
def takeSample (now : Int) : ReducerSampler T :=
  { s with
    value := if invOp.isSome then s.value else 1
    q := s.readyQueue.elimPush ⟨s.value, now⟩ }

def getValue (windowSize : Int) : Option (Sample T) :=
  if windowSize ≤ 0 ∨ s.q.count ≤ 1 then
    none
  else
    let latest := s.q.items (s.q.slot 0)
    let oldest := s.q.items (s.oldest windowSize)
    some
      { data := match invOp with
          | none => (s.walk windowSize).foldl (· * ·) latest.data
          | some invOp => invOp latest.data oldest.data
        timeUs := latest.timeUs - oldest.timeUs }

/-- The time up to a tick: its updates and the window size at the tick. -/
structure Interval (T : Type*) where
  updates : List T
  windowSize : Nat

/-- The histories of a sampler: its intervals, the latest first, and the updates behind the last
tick. -/
inductive History : ReducerSampler T → List (Interval T) → List T → Prop where
  | created (updates : List T) (item : Sample T) (now : Int) :
      History (takeSample ⟨updates.prod, 1, fun _ => item, 0, 0, 0, Nat.le_refl 0, id⟩ invOp now)
        [⟨updates, 1⟩] []
  | update {s ticks updates} (history : History s ticks updates) (x : T) :
      History { s with value := s.value * x } ticks (updates ++ [x])
  | setWindowSize {s ticks updates} (history : History s ticks updates) (windowSize : Int) :
      History (s.setWindowSize windowSize) ticks updates
  | tick {s ticks updates} (history : History s ticks updates) (now : Int) :
      History (s.takeSample invOp now) (⟨updates, s.windowSize⟩ :: ticks) []

/-- The fold of all updates of some intervals. -/
def total (ticks : List (Interval T)) : T := (ticks.map fun tick => tick.updates.prod).prod

/-- The data of the sample that ends the first of the intervals. -/
def reading (ticks : List (Interval T)) : T :=
  total (if invOp.isSome then ticks else ticks.take 1)

/-- The ring has the samples of the latest intervals, and of as many as the windows ask for. -/
structure Samples (ticks : List (Interval T)) (updates : List T) : Prop where
  value_eq : s.value = (if invOp.isSome then total ticks else 1) * updates.prod
  count_le : s.q.count ≤ ticks.length
  data_eq : ∀ index < s.q.count,
    (s.q.items (s.q.slot index)).data = reading invOp (ticks.drop index)
  wide : ∀ {n w : Nat}, n < ticks.length → (∀ tick ∈ ticks.take n, w ≤ tick.windowSize) →
    min (n + 1) (w + 1) ≤ s.q.count

variable {invOp s} {ticks : List (Interval T)} {updates : List T} {w : Int}

theorem Samples.takeSample (samples : Samples s invOp ticks updates) (now : Int) :
    Samples (s.takeSample invOp now) invOp (⟨updates, s.windowSize⟩ :: ticks) [] := by
  have room := @lt_cap_readyQueue _ s
  have count_eq : (s.takeSample invOp now).q.count =
      if s.q.count < s.readyQueue.cap then s.q.count + 1 else s.q.count := by
    rw [← (@readyQueue_eq _ s).1]
    rfl
  have read : reading invOp (⟨updates, s.windowSize⟩ :: ticks) = s.value := by
    rw [samples.value_eq, reading]
    cases invOp <;> simp [total, mul_comm]
  constructor
  · cases invOp with
    | none => simp [ReducerSampler.takeSample]
    | some inv => simpa [ReducerSampler.takeSample, reading] using read.symm
  · have := samples.count_le
    rw [count_eq, length_cons]
    split <;> omega
  · intro index inside
    have pushed := s.readyQueue.items_slot_elimPush ⟨s.value, now⟩ (by omega) inside
    cases index with
    | zero => exact (congrArg Sample.data pushed).trans read.symm
    | succ index =>
      have kept : index < s.q.count := by
        rw [count_eq] at inside
        split at inside <;> omega
      rw [drop_succ_cons, ← samples.data_eq index kept, ← readyQueue_eq.2 index kept]
      exact congrArg Sample.data pushed
  · intro n w behind wide
    have full := s.readyQueue.count_le
    rw [readyQueue_eq.1] at full
    rw [count_eq]
    cases n with
    | zero => split <;> omega
    | succ n =>
      rw [take_succ_cons, forall_mem_cons] at wide
      have before := samples.wide (lt_of_succ_lt_succ behind) wide.2
      have now_wide : w ≤ s.windowSize := wide.1
      split <;> omega

theorem History.samples (past : History invOp s ticks updates) :
    Samples s invOp ticks updates := by
  induction past with
  | created updates item now =>
    refine Samples.takeSample (s := ⟨_, 1, _⟩) ⟨?_, le_refl 0, ?_, ?_⟩ now
    · simp [total]
    · exact fun index inside => absurd inside (not_lt_zero index)
    · exact fun behind => absurd behind (not_lt_zero _)
  | update past x samples =>
    refine ⟨?_, samples.count_le, samples.data_eq, samples.wide⟩
    rw [prod_append, prod_singleton, ← mul_assoc, ← samples.value_eq]
  | setWindowSize past windowSize samples =>
    unfold ReducerSampler.setWindowSize
    split
    · exact samples
    · exact ⟨samples.value_eq, samples.count_le, samples.data_eq, samples.wide⟩
  | tick past now samples => exact samples.takeSample now

theorem reading_none_cons (tick : Interval T) : reading none (tick :: ticks) = tick.updates.prod :=
  mul_one _

theorem map_reading {first size : Nat} (inside : first + size ≤ ticks.length) :
    (range' first size).map (fun index => reading none (ticks.drop index)) =
      ((ticks.drop first).take size).map fun tick => tick.updates.prod := by
  induction size generalizing first with
  | zero => rw [take_zero]; rfl
  | succ size ih =>
    rw [range'_succ, map_cons, ih (by omega), drop_eq_getElem_cons (by omega), take_succ_cons,
      map_cons, reading_none_cons]

/-- Without an inverse operator the walk has the intervals of the window but the latest. -/
theorem prod_walk (samples : Samples s none ticks updates) (pos : 0 < w) (several : 1 < s.q.count) :
    (s.walk w).prod = total (ticks.take (min w.toNat (s.q.count - 1))).tail ∧
      (s.walk w).foldl (· * ·) (s.q.items (s.q.slot 0)).data =
        total (ticks.take (min w.toNat (s.q.count - 1))) := by
  have count_le := samples.count_le
  have walk_prod : (s.walk w).prod =
      total ((ticks.drop 1).take (min w.toNat (s.q.count - 1) - 1)) := by
    rw [walk_eq several pos, total, ← map_reading (by omega)]
    refine congrArg List.prod (map_congr_left fun index index_mem => ?_)
    have := mem_range'_1.mp index_mem
    exact samples.data_eq index (by omega)
  have fold (data : T) : (s.walk w).foldl (· * ·) data = data * (s.walk w).prod := by
    rw [← prod_cons, prod_eq_foldl, foldl_cons, one_mul]
  obtain ⟨size, size_eq⟩ : ∃ size, min w.toNat (s.q.count - 1) = size + 1 :=
    exists_eq_succ_of_ne_zero (by omega)
  rw [fold, samples.data_eq 0 (by omega), walk_prod, size_eq]
  cases ticks with
  | nil => simp at count_le; omega
  | cons tick ticks => simp [reading, total]

/-- The latest interval adds nothing to the others. -/
def Absorbed (ticks : List (Interval T)) : Prop := total ticks.tail = total ticks

/-- The samples of a window without inverse operator give its value exactly when the others
absorb the latest one, which they lack. -/
theorem prod_getSamples_eq_iff {sample : Sample T} (history : History none s ticks updates)
    (got : s.getValue none w = some sample) :
    (s.getSamples w).prod = sample.data ↔
      Absorbed (ticks.take (min w.toNat (s.q.count - 1))) := by
  unfold getValue at got
  unfold getSamples Absorbed
  split at got
  · cases got
  · next valid =>
    obtain rfl := Option.some.inj got
    have both := prod_walk history.samples (by omega : 0 < w) (by omega)
    rw [if_neg valid, both.1, both.2]

/-- A product of two intervals, the earlier one with a zero. -/
theorem prod_getSamples_eq_zero : ∃ (s : ReducerSampler ℕ) (ticks : List _) (sample : _),
    History none s ticks [] ∧ s.getValue none 2 = some sample ∧
      (s.getSamples 2).prod = sample.data := by
  have history : History none _ _ _ := .tick (.update (.tick
    (.update (.setWindowSize (.created [] ⟨1, 0⟩ 0) 2) 0) 1) 5) 2
  exact ⟨_, _, _, history, rfl, (prod_getSamples_eq_iff history rfl).mpr rfl⟩

/-- The product of one interval is not among the samples. -/
theorem not_prod_getSamples_eq : ∃ (s : ReducerSampler ℕ) (ticks : List _) (sample : _),
    History none s ticks [] ∧ s.getValue none 1 = some sample ∧
      (s.getSamples 1).prod ≠ sample.data := by
  refine ⟨_, _, _, .tick (.update (.created [] ⟨1, 0⟩ 0) 5) 1, rfl, ?_⟩
  decide

/-- In every history the value of a window is the fold of the updates of its intervals. -/
theorem getValue_eq_total (lawful : ∀ inv ∈ invOp, ∀ a b, inv (a * b) b = a)
    (history : History invOp s ticks updates) (several : 2 ≤ ticks.length) (positive : 0 < w)
    (wide : ∀ tick ∈ ticks.take (min w.toNat (ticks.length - 1)), w ≤ tick.windowSize) :
    (s.getValue invOp w).map Sample.data =
      some (total (ticks.take (min w.toNat (ticks.length - 1)))) := by
  have samples := history.samples
  have count_le := samples.count_le
  have kept := samples.wide (by omega) fun tick tick_mem => Int.toNat_le.mpr (wide tick tick_mem)
  have size_eq : min w.toNat (s.q.count - 1) = min w.toNat (ticks.length - 1) := by omega
  rw [getValue, if_neg (by omega), Option.map_some]
  refine congrArg some ?_
  cases invOp with
  | none => exact size_eq ▸ (prod_walk samples positive (by omega)).2
  | some inv =>
    change inv (s.q.items (s.q.slot 0)).data (s.q.items (s.oldest w)).data = _
    rw [oldest_eq (by omega), size_eq, samples.data_eq 0 (by omega), samples.data_eq _ (by omega)]
    generalize min w.toNat (ticks.length - 1) = size
    have split_eq : total ticks = total (ticks.take size) * total (ticks.drop size) := by
      rw [total, total, total, ← prod_append, ← map_append, take_append_drop]
    exact (congrArg (inv · _) split_eq).trans (lawful inv rfl _ _)

/-- The sum of the last of two intervals. -/
theorem getValue_eq_total_adder : ∃ (s : ReducerSampler (Multiplicative ℤ)) (ticks : List _),
    History (some (· / ·)) s ticks [] ∧
      (s.getValue (some (· / ·)) 1).map Sample.data = some (total (ticks.take 1)) := by
  have history : History (some fun a b : Multiplicative ℤ => a / b) _ _ _ :=
    .tick (.update (.created [.ofAdd 3] ⟨1, 0⟩ 0) (.ofAdd 5)) 1
  refine ⟨_, _, history, getValue_eq_total ?_ history (by decide) (by decide) (by decide)⟩
  rintro inv ⟨⟩ a b
  exact mul_div_cancel_right a b

end ReducerSampler

end McBrpc.Bvar
