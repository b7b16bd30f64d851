import Mathlib.Order.Lattice
import Mathlib.Tactic.Common

/-!
# Machines that run by themselves

A machine without input is iterated.  One machine follows another when each of its steps is some
number of steps of the other, none included; it then ends where the other ends.
-/

namespace Machine

open Function

variable {σ τ : Type*}

/-- The machine passes from the first state to the second. -/
def Reaches (step : σ → σ) (first second : σ) : Prop := ∃ n, step^[n] first = second

namespace Reaches

variable {step : σ → σ} {first second third : σ}

theorem refl (step : σ → σ) (state : σ) : Reaches step state state := ⟨0, rfl⟩

theorem single (one : step first = second) : Reaches step first second := ⟨1, one⟩

theorem trans (one : Reaches step first second) (two : Reaches step second third) :
    Reaches step first third := by
  obtain ⟨n, rfl⟩ := one
  obtain ⟨m, rfl⟩ := two
  exact ⟨m + n, iterate_add_apply _ m n first⟩

theorem stop_unique {state : σ} (one : Reaches step state first) (two : Reaches step state second)
    (firstStops : step first = first) (secondStops : step second = second) : first = second := by
  obtain ⟨n, rfl⟩ := one
  obtain ⟨m, rfl⟩ := two
  obtain le | le := Nat.le_total n m
  · obtain ⟨k, rfl⟩ := Nat.exists_eq_add_of_le' le
    rw [iterate_add_apply, iterate_fixed firstStops]
  · obtain ⟨k, rfl⟩ := Nat.exists_eq_add_of_le' le
    rw [iterate_add_apply, iterate_fixed secondStops]

end Reaches

variable {step : σ → σ}

theorem iterate_invariant {valid : σ → Prop} (invariant : σ → Prop) {start : σ}
    (holds : invariant start)
    (keeps : ∀ state, valid state → invariant state → invariant (step state))
    (every : ∀ i, valid (step^[i] start)) (n : Nat) : invariant (step^[n] start) := by
  induction n with
  | zero => exact holds
  | succ n ih =>
    rw [iterate_succ_apply']
    exact keeps _ (every n) ih

theorem follows {plainStep : τ → τ} {valid : σ → Prop} (plain : σ → τ) (invariant : σ → Prop)
    {start : σ} (holds : invariant start) (keeps : ∀ state, valid state → invariant state →
      Reaches plainStep (plain state) (plain (step state)) ∧ invariant (step state))
    (every : ∀ i, valid (step^[i] start)) (n : Nat) :
    Reaches plainStep (plain start) (plain (step^[n] start)) := by
  have all := iterate_invariant
    (fun state => Reaches plainStep (plain start) (plain state) ∧ invariant state)
    ⟨.refl _ _, holds⟩
    (fun state admitted reached =>
      have next := keeps state admitted reached.2
      ⟨reached.1.trans next.1, next.2⟩)
    every n
  exact all.1

theorem exists_final (final : σ → Prop) (rank : σ → Nat)
    (falls : ∀ state, ¬final state → rank (step state) < rank state) (start : σ) :
    ∃ n, final (step^[n] start) := by
  induction size : rank start using Nat.strong_induction_on generalizing start with
  | _ size ih =>
    by_cases done : final start
    · exact ⟨0, done⟩
    · obtain ⟨n, reached⟩ := ih _ (size ▸ falls start done) (step start) rfl
      exact ⟨n + 1, reached⟩

end Machine
