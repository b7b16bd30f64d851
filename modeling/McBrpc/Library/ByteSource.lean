import Mathlib.Data.List.Infix

/-!
# Sources of bytes

A buffer that is read from its front, described by the bytes that are left in it: each operation
is the one of the plain list of these bytes.  A reader written against a `ByteSource` runs on a
buffer and on the list itself, and both runs agree.
-/

/-- The operations of a buffer that is cut from its front. -/
class ByteSource (σ : Type) where
  /-- What is left. -/
  bytes : σ → List UInt8
  remainingBytes : σ → Nat
  /-- A copy of the first bytes. -/
  copyTo : σ → Nat → List UInt8 × σ
  popFront : σ → Nat → σ
  cut1 : σ → Option UInt8 × σ
  cutn : σ → Nat → List UInt8 × σ
  remainingBytes_eq : ∀ source, remainingBytes source = (bytes source).length
  copyTo_fst : ∀ source n, (copyTo source n).1 = (bytes source).take n
  bytes_copyTo : ∀ source n, bytes (copyTo source n).2 = bytes source
  bytes_popFront : ∀ source n, bytes (popFront source n) = (bytes source).drop n
  cut1_fst : ∀ source, (cut1 source).1 = (bytes source).head?
  bytes_cut1 : ∀ source, bytes (cut1 source).2 = (bytes source).tail
  cutn_fst : ∀ source n, (cutn source n).1 = (bytes source).take n
  bytes_cutn : ∀ source n, bytes (cutn source n).2 = (bytes source).drop n

namespace ByteSource

attribute [simp] remainingBytes_eq copyTo_fst bytes_copyTo bytes_popFront cut1_fst bytes_cut1
  cutn_fst bytes_cutn

/-- The plain list of bytes. -/
instance : ByteSource (List UInt8) where
  bytes source := source
  remainingBytes source := source.length
  copyTo source n := (source.take n, source)
  popFront source n := source.drop n
  cut1 source := (source.head?, source.tail)
  cutn source n := (source.take n, source.drop n)
  remainingBytes_eq _ := rfl
  copyTo_fst _ _ := rfl
  bytes_copyTo _ _ := rfl
  bytes_popFront _ _ := rfl
  cut1_fst _ := rfl
  bytes_cut1 _ := rfl
  cutn_fst _ _ := rfl
  bytes_cutn _ _ := rfl

variable (source : List UInt8) (n : Nat)

@[simp]
theorem bytes_list : bytes source = source := rfl

@[simp]
theorem copyTo_list : copyTo source n = (source.take n, source) := rfl

@[simp]
theorem popFront_list : popFront source n = source.drop n := rfl

@[simp]
theorem cut1_list : cut1 source = (source.head?, source.tail) := rfl

@[simp]
theorem cutn_list : cutn source n = (source.take n, source.drop n) := rfl

end ByteSource
