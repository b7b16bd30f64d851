import Mathlib.Tactic.Common

/-!
# Reading items from the front of a byte string

A reader takes one item from the front, or says that the bytes end too early, or that no item can
begin like this.  A *delimited* reader never reads an item from a proper beginning of another one.
-/

inductive Reading (α : Type*) where
  | incomplete
  | malformed
  | value (item : α) (rest : List UInt8)
deriving DecidableEq, Repr

namespace Reading

open List Reading

variable {α β : Type*}

/-- Go on with the item and the bytes behind it. -/
def bind (reading : Reading α) (next : α → List UInt8 → Reading β) : Reading β :=
  match reading with
  | incomplete => incomplete
  | malformed => malformed
  | value item rest => next item rest

/-- Refuse an item that ends too early. -/
def strict : Reading α → Reading α
  | incomplete => malformed
  | reading => reading

@[simp]
theorem bind_value (item : α) (rest : List UInt8) (next : α → List UInt8 → Reading β) :
    (value item rest).bind next = next item rest := rfl

@[simp]
theorem strict_value (item : α) (rest : List UInt8) : (value item rest).strict = value item rest :=
  rfl

variable {read : Reading α}

@[simp]
theorem strict_eq_value_iff {item : α} {rest : List UInt8} :
    read.strict = value item rest ↔ read = value item rest := by
  cases read <;> simp [strict]

theorem strict_ne_incomplete (read : Reading α) : read.strict ≠ incomplete := by
  cases read <;> simp [strict]

theorem bind_ne_incomplete {next : α → List UInt8 → Reading β} (first : read ≠ incomplete)
    (later : ∀ item rest, next item rest ≠ incomplete) : read.bind next ≠ incomplete := by
  cases read with
  | incomplete => exact absurd rfl first
  | malformed => simp [bind]
  | value item rest => exact later item rest

theorem bind_eq_value_iff {next : α → List UInt8 → Reading β} {item : β} {rest : List UInt8} :
    read.bind next = value item rest ↔
      ∃ first behind, read = value first behind ∧ next first behind = value item rest := by
  cases read <;> simp [bind]

/-- What is read does not depend on the bytes behind it. -/
def Delimited (reader : List UInt8 → Reading α) : Prop :=
  ∀ ⦃bytes item rest⦄, reader bytes = value item rest →
    ∃ used, bytes = used ++ rest ∧ ∀ tail, reader (used ++ tail) = value item tail

namespace Delimited

variable {reader : List UInt8 → Reading α}

theorem strict (delimited : Delimited reader) : Delimited fun bytes => (reader bytes).strict := by
  intro bytes item rest read
  obtain ⟨used, bytes_eq, again⟩ := delimited (strict_eq_value_iff.mp read)
  exact ⟨used, bytes_eq, fun tail => by simp [again tail]⟩

theorem bind (delimited : Delimited reader) {next : α → List UInt8 → Reading β}
    (later : ∀ item, Delimited (next item)) : Delimited fun bytes => (reader bytes).bind next := by
  intro bytes item rest read
  obtain ⟨first, behind, firstRead, nextRead⟩ := bind_eq_value_iff.mp read
  obtain ⟨used, rfl, again⟩ := delimited firstRead
  obtain ⟨usedNext, rfl, againNext⟩ := later first nextRead
  refine ⟨used ++ usedNext, (append_assoc _ _ _).symm, fun tail => ?_⟩
  simp [again, bind_value, againNext]

theorem ofValue (item : α) : Delimited fun bytes => value item bytes := by
  intro bytes other rest read
  obtain ⟨rfl, rfl⟩ := value.inj read
  exact ⟨[], rfl, fun tail => rfl⟩

theorem ofMalformed : Delimited fun _ => (malformed : Reading α) := by
  intro bytes item rest read
  cases read

theorem cons (delimited : Delimited reader) (needs : ∀ item rest, reader [] ≠ .value item rest)
    {first : UInt8} {rest behind : List UInt8} {item : α}
    (read : reader (first :: rest) = .value item behind) :
    ∃ more, rest = more ++ behind ∧ ∀ tail, reader (first :: (more ++ tail)) =
      .value item tail := by
  obtain ⟨used, split, again⟩ := delimited read
  cases used with
  | nil => exact absurd (again []) (needs item [])
  | cons byte more =>
    obtain ⟨rfl, rest_eq⟩ := cons.inj split
    exact ⟨more, rest_eq, again⟩

theorem not_value_of_append (delimited : Delimited reader) {head tail : List UInt8} {item : α}
    (whole : reader (head ++ tail) = value item []) (cut : tail ≠ []) (other : α)
    (rest : List UInt8) : reader head ≠ value other rest := by
  intro early
  obtain ⟨used, rfl, again⟩ := delimited early
  rw [append_assoc, again] at whole
  simp only [value.injEq, append_eq_nil_iff] at whole
  exact cut whole.2.2

end Delimited

end Reading
