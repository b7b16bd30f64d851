import Mathlib.Data.List.Infix

/-!
# Files of cells and padding

Resizing a file cuts it off or extends it with a filler, as `ftruncate` does, and overwriting
replaces the cells from a position on.  `Padded` says that a file spells given data with fillers
inserted anywhere.
-/

namespace PaddedFile

open List Nat

variable {α : Type*} {fill : α}

/-- The first cells of the file, extended with the filler where there are too few. -/
def resize (fill : α) (size : Nat) (file : List α) : List α :=
  file.take size ++ List.replicate (size - file.length) fill

def overwrite (position : Nat) (data file : List α) : List α :=
  file.take position ++ data ++ file.drop (position + data.length)

theorem resize_append_replicate {text : List α} {size spare : Nat}
    (fits : text.length + spare ≤ size) :
    resize fill size (text ++ List.replicate spare fill) =
      text ++ List.replicate (size - text.length) fill := by
  rw [resize, take_of_length_le (by simpa using fits), length_append,
    length_replicate, append_assoc, replicate_append_replicate]
  congr 2
  omega

theorem overwrite_append_replicate {text data : List α} {spare : Nat} :
    overwrite text.length data (text ++ List.replicate spare fill) =
      (text ++ data) ++ List.replicate (spare - data.length) fill := by
  rw [overwrite, take_left, drop_length_add_append, drop_replicate]

/-- The cells spell the data, with fillers inserted before, between and after its elements. -/
inductive Padded (fill : α) : List α → List α → Prop
  | nil : Padded fill [] []
  | gap {data cells : List α} : Padded fill data cells → Padded fill data (fill :: cells)
  | cell (value : α) {data cells : List α} :
      Padded fill data cells → Padded fill (value :: data) (value :: cells)

variable {data cells : List α}

theorem Padded.replicate_append (padded : Padded fill data cells) (count : Nat) :
    Padded fill data (List.replicate count fill ++ cells) := by
  induction count with
  | zero => exact padded
  | succ count ih => exact ih.gap

theorem Padded.append_left (padded : Padded fill data cells) (values : List α) :
    Padded fill (values ++ data) (values ++ cells) := by
  induction values with
  | nil => exact padded
  | cons value values ih => exact ih.cell value

theorem padded_replicate (fill : α) (count : Nat) : Padded fill [] (List.replicate count fill) := by
  have padded : Padded fill [] [] := .nil
  simpa using padded.replicate_append count

variable (padded : Padded fill data cells)
include padded

theorem Padded.length_le : data.length ≤ cells.length := by
  induction padded with
  | nil => exact le_refl 0
  | gap _ ih => exact le_succ_of_le ih
  | cell _ _ ih => exact succ_le_succ ih

theorem Padded.eq_fill (blank : ∀ value ∈ data, value = fill) : ∀ value ∈ cells, value = fill := by
  induction padded with
  | nil => exact blank
  | gap _ ih => exact forall_mem_cons.mpr ⟨rfl, ih blank⟩
  | cell _ _ ih =>
    obtain ⟨first, rest⟩ := forall_mem_cons.mp blank
    exact forall_mem_cons.mpr ⟨first, ih rest⟩

theorem Padded.getElem?_cases {index : Nat} {value : α} (found : cells[index]? = some value) :
    value = fill ∨ ∃ prior ≤ index, data[prior]? = some value := by
  induction padded generalizing index with
  | nil => simp at found
  | gap _ ih =>
    cases index with
    | zero => exact .inl (Option.some.inj found).symm
    | succ index =>
      rcases ih found with blank | ⟨prior, le, same⟩
      · exact .inl blank
      · exact .inr ⟨prior, le_succ_of_le le, same⟩
  | cell _ _ ih =>
    cases index with
    | zero => exact .inr ⟨0, le_refl 0, found⟩
    | succ index =>
      rcases ih found with blank | ⟨prior, le, same⟩
      · exact .inl blank
      · exact .inr ⟨prior + 1, succ_le_succ le, same⟩

theorem Padded.prefix_gap_iff : data <+: fill :: cells ↔ ∀ value ∈ data, value = fill := by
  constructor
  · rintro ⟨rest, rest_eq⟩
    have blank : ∀ (index : Nat) value, data[index]? = some value → value = fill := by
      intro index
      induction index using Nat.strong_induction_on with
      | _ index ih =>
        intro value found
        have inside : index < data.length := (List.getElem?_eq_some_iff.mp found).1
        have shifted : (fill :: cells)[index]? = some value := by
          rw [← found, ← rest_eq, getElem?_append_left inside]
        cases index with
        | zero => exact (Option.some.inj shifted).symm
        | succ index =>
          rcases padded.getElem?_cases shifted with blank | ⟨prior, le, same⟩
          · exact blank
          · exact ih prior (lt_succ_of_le le) value same
    intro value value_mem
    obtain ⟨index, found⟩ := getElem?_of_mem value_mem
    exact blank index value found
  · intro blank
    rw [eq_replicate_of_mem (padded.gap.eq_fill blank), prefix_replicate_iff]
    exact ⟨padded.gap.length_le, eq_replicate_of_mem blank⟩

end PaddedFile
