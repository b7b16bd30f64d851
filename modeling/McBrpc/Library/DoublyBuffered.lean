import Mathlib.Data.Nat.Notation

/-!
# Doubly buffered data

Readers see the foreground, and a modification is applied to the background first.  If it reports a
change, the copies are exchanged and the modification is applied to the other one as well.
-/

structure DoublyBuffered (T : Type*) where
  foreground : T
  background : T

namespace DoublyBuffered

variable {T S : Type*}

/-- The first half of a modification: the background is changed and, if the modification counts
anything, becomes the foreground. -/
def publish (fn : T → T → S → Nat × T × S) (data : DoublyBuffered T) (shared : S) :
    Nat × DoublyBuffered T × S :=
  match fn data.background data.foreground shared with
  | (0, background, shared) => (0, { data with background := background }, shared)
  | (count + 1, background, shared) => (count + 1, ⟨background, data.foreground⟩, shared)

/-- The second half, in which the other copy follows. -/
def synchronize (fn : T → T → S → Nat × T × S) (data : DoublyBuffered T) (shared : S) :
    Nat × DoublyBuffered T × S :=
  match fn data.background data.foreground shared with
  | (count, background, shared) => (count, { data with background := background }, shared)

def modifyWithForeground (fn : T → T → S → Nat × T × S) (data : DoublyBuffered T) (shared : S) :
    Nat × DoublyBuffered T × S :=
  match publish fn data shared with
  | (0, data, shared) => (0, data, shared)
  | (_ + 1, data, shared) => synchronize fn data shared

def modify (fn : T → Nat × T) (data : DoublyBuffered T) : Nat × DoublyBuffered T :=
  match modifyWithForeground (fun background _ _ => ((fn background).1, (fn background).2, ()))
    data () with
  | (count, data, _) => (count, data)

theorem modify_forall {holds : T → Prop} {fn : T → Nat × T} {data : DoublyBuffered T}
    (keeps : ∀ copy, holds copy → holds (fn copy).2)
    (both : holds data.foreground ∧ holds data.background) :
    holds (data.modify fn).2.foreground ∧ holds (data.modify fn).2.background := by
  have changed := keeps _ both.2
  simp only [modify, modifyWithForeground, publish]
  cases (fn data.background).1 with
  | zero => exact ⟨both.1, changed⟩
  | succ count => exact ⟨changed, keeps _ both.1⟩

end DoublyBuffered
