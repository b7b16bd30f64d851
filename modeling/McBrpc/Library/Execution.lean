import Mathlib.Data.List.Infix
import Mathlib.Logic.Relation

/-!
# Runs of a step function

A finite run of a deterministic machine is the left fold of its step function over a list of
actions.  `EveryState` and `EveryStep` quantify over the prefixes of that list, hence over every
state reached and every transition taken on the way.
-/

namespace Execution

open List

variable {σ α : Type*}

/-- The property holds in the initial state and after every prefix of the actions. -/
def EveryState (step : σ → α → σ) (property : σ → Prop) (initial : σ) (actions : List α) : Prop :=
  ∀ history, history <+: actions → property (history.foldl step initial)

/-- Every action of the list is admissible in the state in which it is taken. -/
def EveryStep (step : σ → α → σ) (admissible : σ → α → Prop) (initial : σ)
    (actions : List α) : Prop :=
  ∀ history action, history ++ [action] <+: actions →
    admissible (history.foldl step initial) action

@[simp]
theorem everyStep_nil (step : σ → α → σ) (admissible : σ → α → Prop) (initial : σ) :
    EveryStep step admissible initial [] := by
  intro history action pre
  simp at pre

theorem everyStep_cons (step : σ → α → σ) (admissible : σ → α → Prop) (initial : σ)
    (action : α) (actions : List α) :
    EveryStep step admissible initial (action :: actions) ↔
      admissible initial action ∧ EveryStep step admissible (step initial action) actions := by
  constructor
  · intro every
    refine ⟨every [] action (by simp), ?_⟩
    intro history later pre
    exact every (action :: history) later (by simpa using pre)
  · rintro ⟨first, rest⟩ history later pre
    cases history with
    | nil =>
      obtain rfl : later = action := by simpa using pre
      exact first
    | cons head history =>
      obtain ⟨rfl, tailPrefix⟩ := cons_prefix_cons.mp pre
      exact rest history later tailPrefix

theorem everyState_cons (step : σ → α → σ) (property : σ → Prop) (initial : σ)
    (action : α) (actions : List α) :
    EveryState step property initial (action :: actions) ↔
      property initial ∧ EveryState step property (step initial action) actions := by
  constructor
  · intro every
    refine ⟨every [] nil_prefix, ?_⟩
    intro history pre
    exact every (action :: history) (by simpa using pre)
  · rintro ⟨first, rest⟩ history pre
    cases history with
    | nil => exact first
    | cons head history =>
      obtain ⟨rfl, tailPrefix⟩ := cons_prefix_cons.mp pre
      exact rest history tailPrefix

variable {step : σ → α → σ} {property : σ → Prop} {initial : σ} {actions : List α}

theorem EveryState.final (every : EveryState step property initial actions) :
    property (actions.foldl step initial) :=
  every actions prefix_rfl

/-- Whether every step is admissible can be decided by following the run. -/
instance decidableEveryStep (step : σ → α → σ) (admissible : σ → α → Prop)
    [∀ state action, Decidable (admissible state action)] :
    ∀ (initial : σ) (actions : List α), Decidable (EveryStep step admissible initial actions)
  | initial, [] => isTrue (everyStep_nil step admissible initial)
  | initial, action :: actions =>
    have := decidableEveryStep step admissible (step initial action) actions
    decidable_of_iff _ (everyStep_cons step admissible initial action actions).symm

theorem EveryState.everyStep_concat (every : EveryState step property initial actions) (last : α) :
    EveryStep step (fun state _ => property state) initial (actions ++ [last]) := by
  intro history action pre
  rcases prefix_concat_iff.mp pre with whole | earlier
  · obtain ⟨rfl, -⟩ := append_inj' whole rfl
    exact every.final
  · exact every history ((prefix_append history [action]).trans earlier)

variable (invariant : σ → Prop)

theorem everyState_of_everyStep {admissible : σ → α → Prop} (start : invariant initial)
    (keeps : ∀ state action, invariant state → admissible state action →
      invariant (step state action)) (every : EveryStep step admissible initial actions) :
    EveryState step invariant initial actions := by
  induction actions generalizing initial with
  | nil =>
    intro history pre
    obtain rfl := prefix_nil.mp pre
    exact start
  | cons action actions ih =>
    obtain ⟨first, rest⟩ := (everyStep_cons ..).mp every
    exact (everyState_cons ..).mpr ⟨start, ih (keeps _ _ start first) rest⟩

theorem foldl_invariant (actions : List α) (start : invariant initial)
    (keeps : ∀ state action, action ∈ actions → invariant state → invariant (step state action)) :
    invariant (actions.foldl step initial) :=
  actions.foldlRecOn step start fun state holds action action_mem =>
    keeps state action action_mem holds

theorem everyStep_congr {left right : σ → α → Prop} (start : invariant initial)
    (keeps : ∀ state action, invariant state → right state action → invariant (step state action))
    (agree : ∀ state action, action ∈ actions → invariant state →
      (left state action ↔ right state action)) :
    EveryStep step left initial actions ↔ EveryStep step right initial actions := by
  induction actions generalizing initial with
  | nil => simp
  | cons action actions ih =>
    have here := agree initial action mem_cons_self start
    have later : ∀ state next, next ∈ actions → invariant state →
        (left state next ↔ right state next) := by
      intro state next next_mem
      exact agree state next (mem_cons_of_mem _ next_mem)
    rw [everyStep_cons, everyStep_cons, here]
    constructor
    · rintro ⟨first, rest⟩
      exact ⟨first, (ih (keeps _ _ start first) later).mp rest⟩
    · rintro ⟨first, rest⟩
      exact ⟨first, (ih (keeps _ _ start first) later).mpr rest⟩

theorem everyState_iff_everyStep_target (step : σ → α → σ) (property : σ → Prop) (initial : σ)
    (actions : List α) :
    EveryState step property initial actions ↔
      property initial ∧
        EveryStep step (fun state action => property (step state action)) initial actions := by
  induction actions generalizing initial with
  | nil =>
    constructor
    · intro every
      exact ⟨every.final, everyStep_nil _ _ _⟩
    · rintro ⟨start, -⟩ history pre
      obtain rfl := prefix_nil.mp pre
      exact start
  | cons action actions ih => rw [everyState_cons, everyStep_cons, ih]

theorem everyState_iff_everyStep {admissible : σ → α → Prop} (start : invariant initial)
    (sound : ∀ state, invariant state → property state)
    (keeps : ∀ state action, invariant state → admissible state action →
      invariant (step state action))
    (breaks : ∀ state action, action ∈ actions → invariant state → property (step state action) →
      admissible state action) :
    EveryState step property initial actions ↔ EveryStep step admissible initial actions := by
  rw [everyState_iff_everyStep_target, and_iff_right (sound _ start)]
  refine everyStep_congr invariant start keeps ?_
  intro state action action_mem holds
  constructor
  · exact breaks state action action_mem holds
  · intro admitted
    exact sound _ (keeps state action holds admitted)

theorem reachable_invariant {relation : σ → σ → Prop} {final : σ} (start : invariant initial)
    (keeps : ∀ before after, invariant before → relation before after → invariant after)
    (reach : Relation.ReflTransGen relation initial final) : invariant final := by
  induction reach with
  | refl => exact start
  | tail _ step ih => exact keeps _ _ ih step

end Execution
