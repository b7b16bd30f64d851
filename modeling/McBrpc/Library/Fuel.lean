import Mathlib.Order.Lattice

/-!
# Computations with fuel

A loop without an obvious bound is a function of an amount of fuel that returns nothing when the
fuel runs out.  It terminates with a value when every sufficient amount of fuel leads to that
value.
-/

/-- Every sufficient amount of fuel leads to the value. -/
def SettlesOn {α : Type*} (run : Nat → Option α) (out : α) : Prop :=
  ∃ bound, ∀ fuel, bound ≤ fuel → run fuel = some out

namespace SettlesOn

open Nat

variable {α β γ : Type*} {run next : Nat → Option α} {out : α}

theorem of_forall (returns : ∀ fuel, run fuel = some out) : SettlesOn run out :=
  ⟨0, fun fuel _ => returns fuel⟩

theorem round (step : ∀ fuel, run (fuel + 1) = next fuel) (settles : SettlesOn next out) :
    SettlesOn run out := by
  obtain ⟨bound, enough⟩ := settles
  refine ⟨bound + 1, fun fuel enough_fuel => ?_⟩
  obtain ⟨fuel, rfl⟩ := Nat.exists_eq_add_of_le enough_fuel
  rw [Nat.add_right_comm, step]
  exact enough _ (Nat.le_add_right _ _)

variable {part : Nat → Option β} {value : β}

section

variable (settles : SettlesOn part value)
include settles

theorem goOn
    (step : ∀ fuel, part fuel = some value → run fuel = next fuel) (rest : SettlesOn next out)
    : SettlesOn run out := by
  obtain ⟨bound, enough⟩ := settles
  obtain ⟨later, enough_later⟩ := rest
  refine ⟨max bound later, fun fuel enough_fuel => ?_⟩
  rw [step fuel (enough fuel ((le_max_left _ _).trans enough_fuel))]
  exact enough_later fuel ((le_max_right _ _).trans enough_fuel)

theorem ends (step : ∀ fuel, part fuel = some value → run fuel = some out) : SettlesOn run out :=
  settles.goOn step (.of_forall fun _ => rfl)

theorem both {other : Nat → Option γ} {result : γ} (other_settles : SettlesOn other result)
    (step : ∀ fuel, part fuel = some value → other fuel = some result → run fuel = some out) :
    SettlesOn run out := by
  obtain ⟨bound, enough⟩ := settles
  obtain ⟨later, enough_later⟩ := other_settles
  refine ⟨max bound later, fun fuel enough_fuel => step fuel (enough fuel ?_)
    (enough_later fuel ?_)⟩
  · exact (le_max_left _ _).trans enough_fuel
  · exact (le_max_right _ _).trans enough_fuel

end

theorem last_round (step : ∀ fuel, run (fuel + 1) = some out) : SettlesOn run out :=
  round step (.of_forall fun _ => rfl)

theorem returns (settles : SettlesOn run out) : ∃ fuel, run fuel = some out := by
  obtain ⟨bound, enough⟩ := settles
  exact ⟨bound, enough bound le_rfl⟩

end SettlesOn
