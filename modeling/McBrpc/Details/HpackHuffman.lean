import Mathlib.Order.Lattice
import McBrpc.Library.MsbBits

/-!
# The Huffman code of HPACK

`HuffmanEncoder` packs the codes of a string into bytes and fills the last byte with ones;
`HuffmanDecoder` walks the tree of the codes bit by bit.  The table is the one of
`details/hpack-static-table.h`.
-/

namespace McBrpc.Hpack

open MsbBits List Option

structure HuffmanCode where
  code : Nat
  bitLen : Nat
deriving DecidableEq, Repr

/-- `s_huffman_table`; the last entry is the end of string. -/
def huffmanTable : List HuffmanCode :=
  [⟨0x1ff8,13⟩,⟨0x7fffd8,23⟩,⟨0xfffffe2,28⟩,⟨0xfffffe3,28⟩,⟨0xfffffe4,28⟩,⟨0xfffffe5,28⟩,
   ⟨0xfffffe6,28⟩,⟨0xfffffe7,28⟩,⟨0xfffffe8,28⟩,⟨0xffffea,24⟩,⟨0x3ffffffc,30⟩,⟨0xfffffe9,28⟩,
   ⟨0xfffffea,28⟩,⟨0x3ffffffd,30⟩,⟨0xfffffeb,28⟩,⟨0xfffffec,28⟩,⟨0xfffffed,28⟩,⟨0xfffffee,28⟩,
   ⟨0xfffffef,28⟩,⟨0xffffff0,28⟩,⟨0xffffff1,28⟩,⟨0xffffff2,28⟩,⟨0x3ffffffe,30⟩,⟨0xffffff3,28⟩,
   ⟨0xffffff4,28⟩,⟨0xffffff5,28⟩,⟨0xffffff6,28⟩,⟨0xffffff7,28⟩,⟨0xffffff8,28⟩,⟨0xffffff9,28⟩,
   ⟨0xffffffa,28⟩,⟨0xffffffb,28⟩,⟨0x14,6⟩,⟨0x3f8,10⟩,⟨0x3f9,10⟩,⟨0xffa,12⟩,⟨0x1ff9,13⟩,⟨0x15,6⟩,
   ⟨0xf8,8⟩,⟨0x7fa,11⟩,⟨0x3fa,10⟩,⟨0x3fb,10⟩,⟨0xf9,8⟩,⟨0x7fb,11⟩,⟨0xfa,8⟩,⟨0x16,6⟩,⟨0x17,6⟩,
   ⟨0x18,6⟩,⟨0x0,5⟩,⟨0x1,5⟩,⟨0x2,5⟩,⟨0x19,6⟩,⟨0x1a,6⟩,⟨0x1b,6⟩,⟨0x1c,6⟩,⟨0x1d,6⟩,⟨0x1e,6⟩,⟨0x1f,6⟩,
   ⟨0x5c,7⟩,⟨0xfb,8⟩,⟨0x7ffc,15⟩,⟨0x20,6⟩,⟨0xffb,12⟩,⟨0x3fc,10⟩,⟨0x1ffa,13⟩,⟨0x21,6⟩,⟨0x5d,7⟩,
   ⟨0x5e,7⟩,⟨0x5f,7⟩,⟨0x60,7⟩,⟨0x61,7⟩,⟨0x62,7⟩,⟨0x63,7⟩,⟨0x64,7⟩,⟨0x65,7⟩,⟨0x66,7⟩,⟨0x67,7⟩,
   ⟨0x68,7⟩,⟨0x69,7⟩,⟨0x6a,7⟩,⟨0x6b,7⟩,⟨0x6c,7⟩,⟨0x6d,7⟩,⟨0x6e,7⟩,⟨0x6f,7⟩,⟨0x70,7⟩,⟨0x71,7⟩,
   ⟨0x72,7⟩,⟨0xfc,8⟩,⟨0x73,7⟩,⟨0xfd,8⟩,⟨0x1ffb,13⟩,⟨0x7fff0,19⟩,⟨0x1ffc,13⟩,⟨0x3ffc,14⟩,⟨0x22,6⟩,
   ⟨0x7ffd,15⟩,⟨0x3,5⟩,⟨0x23,6⟩,⟨0x4,5⟩,⟨0x24,6⟩,⟨0x5,5⟩,⟨0x25,6⟩,⟨0x26,6⟩,⟨0x27,6⟩,⟨0x6,5⟩,
   ⟨0x74,7⟩,⟨0x75,7⟩,⟨0x28,6⟩,⟨0x29,6⟩,⟨0x2a,6⟩,⟨0x7,5⟩,⟨0x2b,6⟩,⟨0x76,7⟩,⟨0x2c,6⟩,⟨0x8,5⟩,⟨0x9,5⟩,
   ⟨0x2d,6⟩,⟨0x77,7⟩,⟨0x78,7⟩,⟨0x79,7⟩,⟨0x7a,7⟩,⟨0x7b,7⟩,⟨0x7ffe,15⟩,⟨0x7fc,11⟩,⟨0x3ffd,14⟩,
   ⟨0x1ffd,13⟩,⟨0xffffffc,28⟩,⟨0xfffe6,20⟩,⟨0x3fffd2,22⟩,⟨0xfffe7,20⟩,⟨0xfffe8,20⟩,⟨0x3fffd3,22⟩,
   ⟨0x3fffd4,22⟩,⟨0x3fffd5,22⟩,⟨0x7fffd9,23⟩,⟨0x3fffd6,22⟩,⟨0x7fffda,23⟩,⟨0x7fffdb,23⟩,
   ⟨0x7fffdc,23⟩,⟨0x7fffdd,23⟩,⟨0x7fffde,23⟩,⟨0xffffeb,24⟩,⟨0x7fffdf,23⟩,⟨0xffffec,24⟩,
   ⟨0xffffed,24⟩,⟨0x3fffd7,22⟩,⟨0x7fffe0,23⟩,⟨0xffffee,24⟩,⟨0x7fffe1,23⟩,⟨0x7fffe2,23⟩,
   ⟨0x7fffe3,23⟩,⟨0x7fffe4,23⟩,⟨0x1fffdc,21⟩,⟨0x3fffd8,22⟩,⟨0x7fffe5,23⟩,⟨0x3fffd9,22⟩,
   ⟨0x7fffe6,23⟩,⟨0x7fffe7,23⟩,⟨0xffffef,24⟩,⟨0x3fffda,22⟩,⟨0x1fffdd,21⟩,⟨0xfffe9,20⟩,⟨0x3fffdb,22⟩,
   ⟨0x3fffdc,22⟩,⟨0x7fffe8,23⟩,⟨0x7fffe9,23⟩,⟨0x1fffde,21⟩,⟨0x7fffea,23⟩,⟨0x3fffdd,22⟩,
   ⟨0x3fffde,22⟩,⟨0xfffff0,24⟩,⟨0x1fffdf,21⟩,⟨0x3fffdf,22⟩,⟨0x7fffeb,23⟩,⟨0x7fffec,23⟩,
   ⟨0x1fffe0,21⟩,⟨0x1fffe1,21⟩,⟨0x3fffe0,22⟩,⟨0x1fffe2,21⟩,⟨0x7fffed,23⟩,⟨0x3fffe1,22⟩,
   ⟨0x7fffee,23⟩,⟨0x7fffef,23⟩,⟨0xfffea,20⟩,⟨0x3fffe2,22⟩,⟨0x3fffe3,22⟩,⟨0x3fffe4,22⟩,⟨0x7ffff0,23⟩,
   ⟨0x3fffe5,22⟩,⟨0x3fffe6,22⟩,⟨0x7ffff1,23⟩,⟨0x3ffffe0,26⟩,⟨0x3ffffe1,26⟩,⟨0xfffeb,20⟩,
   ⟨0x7fff1,19⟩,⟨0x3fffe7,22⟩,⟨0x7ffff2,23⟩,⟨0x3fffe8,22⟩,⟨0x1ffffec,25⟩,⟨0x3ffffe2,26⟩,
   ⟨0x3ffffe3,26⟩,⟨0x3ffffe4,26⟩,⟨0x7ffffde,27⟩,⟨0x7ffffdf,27⟩,⟨0x3ffffe5,26⟩,⟨0xfffff1,24⟩,
   ⟨0x1ffffed,25⟩,⟨0x7fff2,19⟩,⟨0x1fffe3,21⟩,⟨0x3ffffe6,26⟩,⟨0x7ffffe0,27⟩,⟨0x7ffffe1,27⟩,
   ⟨0x3ffffe7,26⟩,⟨0x7ffffe2,27⟩,⟨0xfffff2,24⟩,⟨0x1fffe4,21⟩,⟨0x1fffe5,21⟩,⟨0x3ffffe8,26⟩,
   ⟨0x3ffffe9,26⟩,⟨0xffffffd,28⟩,⟨0x7ffffe3,27⟩,⟨0x7ffffe4,27⟩,⟨0x7ffffe5,27⟩,⟨0xfffec,20⟩,
   ⟨0xfffff3,24⟩,⟨0xfffed,20⟩,⟨0x1fffe6,21⟩,⟨0x3fffe9,22⟩,⟨0x1fffe7,21⟩,⟨0x1fffe8,21⟩,⟨0x7ffff3,23⟩,
   ⟨0x3fffea,22⟩,⟨0x3fffeb,22⟩,⟨0x1ffffee,25⟩,⟨0x1ffffef,25⟩,⟨0xfffff4,24⟩,⟨0xfffff5,24⟩,
   ⟨0x3ffffea,26⟩,⟨0x7ffff4,23⟩,⟨0x3ffffeb,26⟩,⟨0x7ffffe6,27⟩,⟨0x3ffffec,26⟩,⟨0x3ffffed,26⟩,
   ⟨0x7ffffe7,27⟩,⟨0x7ffffe8,27⟩,⟨0x7ffffe9,27⟩,⟨0x7ffffea,27⟩,⟨0x7ffffeb,27⟩,⟨0xffffffe,28⟩,
   ⟨0x7ffffec,27⟩,⟨0x7ffffed,27⟩,⟨0x7ffffee,27⟩,⟨0x7ffffef,27⟩,⟨0x7fffff0,27⟩,⟨0x3ffffee,26⟩,
   ⟨0x3fffffff,30⟩]

/-- `HPACK_HUFFMAN_EOS` -/
def huffmanEos : Nat := 256

def huffmanCode (byte : UInt8) : HuffmanCode := huffmanTable.getD byte.toNat ⟨0, 0⟩

def HuffmanCode.bits (code : HuffmanCode) : List Bool := msbBits code.bitLen code.code

/-- The nodes of `HuffmanTree`; `value` is missing for `INVALID_VALUE`. -/
inductive HuffmanTree where
  | null
  | node (value : Option Nat) (left right : HuffmanTree)
deriving DecidableEq, Repr

namespace HuffmanTree

def value : HuffmanTree → Option Nat
  | null => none
  | node value _ _ => value

def child : HuffmanTree → Bool → HuffmanTree
  | null, _ => null
  | node _ left right, bit => if bit then right else left

/-- `AddLeafNode`, which allocates the nodes that are missing on the way. -/
def addLeafNode (leaf : Nat) : List Bool → HuffmanTree → HuffmanTree
  | [], tree => node (some leaf) (tree.child false) (tree.child true)
  | true :: bits, tree =>
    node tree.value (tree.child false) (addLeafNode leaf bits (tree.child true))
  | false :: bits, tree =>
    node tree.value (addLeafNode leaf bits (tree.child false)) (tree.child true)

/-- A path through nodes without a value that ends at the leaf of a symbol. -/
def leads (leaf : Nat) : List Bool → HuffmanTree → Bool
  | [], _ => false
  | bit :: bits, tree =>
    match tree.child bit with
    | null => false
    | node (some value) _ _ => value == leaf && bits.isEmpty
    | node none left right => leads leaf bits (node none left right)

/-- A path through nodes without a value that follows the ones. -/
def staysOnOnes : Nat → HuffmanTree → Bool
  | 0, _ => true
  | count + 1, tree =>
    match tree.child true with
    | null => false
    | node (some _) _ _ => false
    | node none left right => staysOnOnes count (node none left right)

def nodes : HuffmanTree → Nat
  | null => 0
  | node _ left right => nodes left + nodes right + 1

end HuffmanTree

/-- `s_huffman_tree` -/
def huffmanTree : HuffmanTree :=
  huffmanTable.zipIdx.foldl (fun tree (code, leaf) => HuffmanTree.addLeafNode leaf code.bits tree)
    (.node none .null .null)

theorem leads_huffmanTree (byte : UInt8) :
    HuffmanTree.leads byte.toNat (huffmanCode byte).bits huffmanTree = true := by
  have all : (range 256).all (fun leaf =>
      HuffmanTree.leads leaf (huffmanTable.getD leaf ⟨0, 0⟩).bits huffmanTree) = true := by
    decide +kernel
  exact all_eq_true.mp all byte.toNat (mem_range.mpr byte.toNat_lt)

theorem staysOnOnes_huffmanTree {count : Nat} (short : count < 8) :
    huffmanTree.staysOnOnes count = true := by
  have all : (range 8).all (fun count => huffmanTree.staysOnOnes count) = true := by
    decide +kernel
  exact all_eq_true.mp all count (mem_range.mpr short)

theorem nodes_huffmanTree : huffmanTree.nodes = 513 := by decide +kernel

theorem huffmanTree_ne_null : huffmanTree ≠ .null := by
  intro missing
  have nodes_eq := nodes_huffmanTree
  rw [missing] at nodes_eq
  simp [HuffmanTree.nodes] at nodes_eq

attribute [irreducible] huffmanTree

structure HuffmanEncoder where
  out : List UInt8 := []
  partialByte : Nat := 0
  remainBit : Nat := 8

namespace HuffmanEncoder

/-- Place some bits below the ones in `_partial_byte`, and push the byte out when it is full. -/
def add (e : HuffmanEncoder) (addingBits addingBitsLen : Nat) : HuffmanEncoder :=
  if e.remainBit - addingBitsLen = 0 then
    ⟨e.out ++ [UInt8.ofNat (e.partialByte ||| addingBits <<< (e.remainBit - addingBitsLen))], 0, 8⟩
  else
    ⟨e.out, e.partialByte ||| addingBits <<< (e.remainBit - addingBitsLen),
      e.remainBit - addingBitsLen⟩

/-- The `addingBitsLen` highest of the bits that are left: leading bits cleared, then aligned. -/
def addingBits (code bitsLeft addingBitsLen : Nat) : Nat :=
  ((code &&& (1 <<< bitsLeft - 1)) >>> (bitsLeft - addingBitsLen)) % 2 ^ 8

/-- The loop `while (bits_left)`. -/
def encodeLoop (code : Nat) : Nat → Nat → HuffmanEncoder → HuffmanEncoder
  | 0, _, e => e
  | fuel + 1, bitsLeft, e =>
    if bitsLeft = 0 then
      e
    else
      let addingBitsLen := min e.remainBit bitsLeft
      encodeLoop code fuel (bitsLeft - addingBitsLen)
        (e.add (addingBits code bitsLeft addingBitsLen) addingBitsLen)

def encode (e : HuffmanEncoder) (byte : UInt8) : HuffmanEncoder :=
  encodeLoop (huffmanCode byte).code (huffmanCode byte).bitLen (huffmanCode byte).bitLen e

/-- `EndStream` fills the byte that is not full with ones. -/
def endStream (e : HuffmanEncoder) : List UInt8 :=
  if e.remainBit = 8 then
    e.out
  else
    e.out ++ [UInt8.ofNat (e.partialByte ||| (1 <<< e.remainBit - 1))]

end HuffmanEncoder

/-- The bytes that `EncodeString` appends for a string under Huffman coding. -/
def huffmanEncode (s : List UInt8) : List UInt8 := (s.foldl HuffmanEncoder.encode {}).endStream

structure HuffmanDecoder where
  out : List UInt8 := []
  curNode : HuffmanTree := huffmanTree
  curDepth : Nat := 0
  padding : Bool := true

namespace HuffmanDecoder

/-- One bit: down the tree, and back to the root with the symbol of a leaf. -/
def decodeBit (d : HuffmanDecoder) (bit : Bool) : Option HuffmanDecoder :=
  match d.curNode.child bit with
  | .null => none
  | .node (some value) _ _ =>
    if value = huffmanEos then
      none
    else
      some ⟨d.out ++ [UInt8.ofNat value], huffmanTree, 0, true⟩
  | .node none left right =>
    some ⟨d.out, .node none left right, d.curDepth + 1, d.padding && bit⟩

def decodeBits (d : HuffmanDecoder) (bits : List Bool) : Option HuffmanDecoder :=
  bits.foldlM decodeBit d

def decode (d : HuffmanDecoder) (byte : UInt8) : Option HuffmanDecoder :=
  d.decodeBits (msbBits 8 byte.toNat)

/-- `EndStream` accepts up to seven ones behind the last symbol. -/
def endStream (d : HuffmanDecoder) : Bool :=
  d.curDepth == 0 || (decide (d.curDepth ≤ 7) && d.padding)

end HuffmanDecoder

/-- The string that `DecodeString` reads from Huffman coded bytes. -/
def huffmanDecode (bytes : List UInt8) : Option (List UInt8) := do
  let d ← bytes.foldlM HuffmanDecoder.decode {}
  if d.endStream then some d.out else none

def bitsOf (bytes : List UInt8) : List Bool := bytes.flatMap fun byte => msbBits 8 byte.toNat

@[simp]
theorem length_bitsOf (bytes : List UInt8) : (bitsOf bytes).length = 8 * bytes.length := by
  induction bytes with
  | nil => rfl
  | cons byte bytes ih =>
    rw [bitsOf, flatMap_cons, length_append, ← bitsOf, ih, length_msbBits, length_cons]
    omega

theorem bitsOf_append_singleton (bytes : List UInt8) (byte : Nat) :
    bitsOf (bytes ++ [UInt8.ofNat byte]) = bitsOf bytes ++ msbBits 8 byte := by
  have kept : msbBits 8 (byte % 2 ^ 8) = msbBits 8 byte := msbBits_mod (Nat.le_refl _) byte
  simpa [bitsOf] using kept

open Nat

namespace HuffmanEncoder

/-- The bits written so far: the full bytes and the upper part of `_partial_byte`. -/
def content (e : HuffmanEncoder) : List Bool :=
  bitsOf e.out ++ msbBits (8 - e.remainBit) (e.partialByte >>> e.remainBit)

/-- There is room in `_partial_byte`, and the room is zero. -/
structure Lawful (e : HuffmanEncoder) : Prop where
  remainBit_pos : 0 < e.remainBit
  remainBit_le : e.remainBit ≤ 8
  zeros : ∀ i < e.remainBit, e.partialByte.testBit i = false

theorem lawful_start : Lawful {} := ⟨by decide, by decide, by simp⟩

variable {e : HuffmanEncoder}

theorem msbBits_or_shiftLeft (lawful : e.Lawful) {addingBits addingBitsLen : Nat}
    (small : addingBits < 2 ^ addingBitsLen) (room : addingBitsLen ≤ e.remainBit) :
    msbBits (8 - (e.remainBit - addingBitsLen))
        ((e.partialByte ||| addingBits <<< (e.remainBit - addingBitsLen)) >>>
          (e.remainBit - addingBitsLen)) =
      msbBits (8 - e.remainBit) (e.partialByte >>> e.remainBit) ++
        msbBits addingBitsLen addingBits := by
  have width : 8 - (e.remainBit - addingBitsLen) = (8 - e.remainBit) + addingBitsLen := by
    have := lawful.remainBit_le
    omega
  have shifted : e.partialByte >>> (e.remainBit - addingBitsLen) >>> addingBitsLen =
      e.partialByte >>> e.remainBit := by
    rw [← Nat.shiftRight_add, Nat.sub_add_cancel room]
  rw [width, Nat.shiftRight_or_distrib, Nat.shiftLeft_shiftRight, msbBits_or_of_zeros ?_ small,
    shifted]
  intro i below
  rw [testBit_shiftRight]
  exact lawful.zeros _ (by omega)

theorem content_add (lawful : e.Lawful) {addingBits added : Nat}
    (small : addingBits < 2 ^ added) (room : added ≤ e.remainBit) :
    (e.add addingBits added).content = e.content ++ msbBits added addingBits := by
  have placed := msbBits_or_shiftLeft lawful small room
  unfold add
  split
  · next full =>
    rw [full] at placed ⊢
    simp only [content, bitsOf_append_singleton, msbBits, append_assoc]
    exact congrArg _ placed
  · simp only [content, append_assoc]
    exact congrArg _ placed

theorem lawful_add (lawful : e.Lawful) (addingBits added : Nat) :
    (e.add addingBits added).Lawful := by
  unfold add
  split
  · exact ⟨by simp, by simp, by simp⟩
  · next roomy =>
    refine ⟨Nat.pos_of_ne_zero roomy, ?_, ?_⟩
    · have := lawful.remainBit_le
      simp only
      omega
    · intro i below
      simp only at below
      have zero := lawful.zeros i (by omega)
      rw [testBit_or, zero, testBit_shiftLeft, decide_eq_false (by omega)]
      rfl

theorem addingBits_spec (code : Nat) {bitsLeft added : Nat}
    (inside : added ≤ bitsLeft) (room : added ≤ 8) :
    addingBits code bitsLeft added < 2 ^ added ∧
      msbBits added (addingBits code bitsLeft added) =
        msbBits added (code >>> (bitsLeft - added)) := by
  rw [addingBits, Nat.one_shiftLeft, and_two_pow_sub_one_eq_mod]
  constructor
  · refine lt_of_le_of_lt (mod_le _ _) ?_
    rw [shiftRight_eq_div_pow]
    apply Nat.div_lt_of_lt_mul
    rw [← Nat.pow_add, Nat.sub_add_cancel inside]
    exact Nat.mod_lt _ (Nat.two_pow_pos _)
  · rw [msbBits_mod room]
    refine msbBits_congr fun i below => ?_
    rw [testBit_shiftRight, testBit_shiftRight, testBit_mod_two_pow,
      decide_eq_true (by omega), Bool.true_and]

theorem encodeLoop_spec (code fuel bitsLeft : Nat) (enough : bitsLeft ≤ fuel) (lawful : e.Lawful) :
    (encodeLoop code fuel bitsLeft e).Lawful ∧
      (encodeLoop code fuel bitsLeft e).content = e.content ++ msbBits bitsLeft code := by
  induction fuel generalizing bitsLeft e with
  | zero =>
    obtain rfl : bitsLeft = 0 := by omega
    exact ⟨lawful, by simp [encodeLoop, msbBits]⟩
  | succ fuel ih =>
    unfold encodeLoop
    split
    · next done =>
      subst done
      exact ⟨lawful, by simp [msbBits]⟩
    · next more =>
      have positive := lawful.remainBit_pos
      have inside : min e.remainBit bitsLeft ≤ bitsLeft := by omega
      have room : min e.remainBit bitsLeft ≤ e.remainBit := by omega
      obtain ⟨small, taken⟩ :=
        addingBits_spec code inside (le_trans room lawful.remainBit_le)
      obtain ⟨rest_lawful, rest_content⟩ := ih (bitsLeft - min e.remainBit bitsLeft) (by omega)
        (lawful_add lawful (addingBits code bitsLeft _) (min e.remainBit bitsLeft))
      refine ⟨rest_lawful, rest_content.trans ?_⟩
      rw [content_add lawful small room, taken, append_assoc]
      have whole := msbBits_add (min e.remainBit bitsLeft)
        (bitsLeft - min e.remainBit bitsLeft) code
      rw [Nat.add_sub_cancel' inside] at whole
      rw [whole]

theorem encode_spec (lawful : e.Lawful) (byte : UInt8) :
    (e.encode byte).Lawful ∧ (e.encode byte).content = e.content ++ (huffmanCode byte).bits :=
  encodeLoop_spec _ _ _ (le_refl _) lawful

theorem foldl_encode_spec (lawful : e.Lawful) (s : List UInt8) : (s.foldl encode e).Lawful ∧
      (s.foldl encode e).content = e.content ++ s.flatMap fun byte => (huffmanCode byte).bits := by
  induction s generalizing e with
  | nil => exact ⟨lawful, by simp⟩
  | cons byte s ih =>
    obtain ⟨next_lawful, next_content⟩ := encode_spec lawful byte
    obtain ⟨rest_lawful, rest_content⟩ := ih next_lawful
    exact ⟨rest_lawful, by
      rw [foldl_cons, rest_content, next_content, flatMap_cons, append_assoc]⟩

theorem bitsOf_endStream (lawful : e.Lawful) :
    ∃ padding < 8, bitsOf e.endStream = e.content ++ replicate padding true := by
  unfold endStream
  split
  · next whole => exact ⟨0, by decide, by simp [content, whole, msbBits]⟩
  · next part =>
    have room := lawful.remainBit_le
    refine ⟨e.remainBit, by omega, ?_⟩
    have small : 2 ^ e.remainBit - 1 < 2 ^ e.remainBit :=
      Nat.sub_lt (Nat.two_pow_pos _) (by decide)
    have filled := @msbBits_or_of_zeros (8 - e.remainBit) _ _ _ lawful.zeros small
    rw [Nat.sub_add_cancel room, msbBits_ones] at filled
    rw [bitsOf_append_singleton, Nat.one_shiftLeft, filled, content, append_assoc]

end HuffmanEncoder

theorem bitsOf_huffmanEncode (s : List UInt8) : ∃ padding < 8, bitsOf (huffmanEncode s) =
      (s.flatMap fun byte => (huffmanCode byte).bits) ++ replicate padding true := by
  obtain ⟨lawful, content_eq⟩ := HuffmanEncoder.foldl_encode_spec HuffmanEncoder.lawful_start s
  obtain ⟨padding, short, bits_eq⟩ := HuffmanEncoder.bitsOf_endStream lawful
  refine ⟨padding, short, bits_eq.trans ?_⟩
  rw [content_eq]
  rfl

namespace HuffmanDecoder

theorem foldlM_decode (d : HuffmanDecoder) (bytes : List UInt8) :
    bytes.foldlM decode d = d.decodeBits (bitsOf bytes) := by
  induction bytes generalizing d with
  | nil => rfl
  | cons byte bytes ih =>
    rw [foldlM_cons, decodeBits, bitsOf, flatMap_cons, foldlM_append]
    exact bind_congr fun next => ih next

theorem decodeBits_of_leads {bits : List Bool} {byte : UInt8} (d : HuffmanDecoder)
    (path : HuffmanTree.leads byte.toNat bits d.curNode = true) :
    d.decodeBits bits = some ⟨d.out ++ [byte], huffmanTree, 0, true⟩ := by
  induction bits generalizing d with
  | nil => simp [HuffmanTree.leads] at path
  | cons bit bits ih =>
    unfold HuffmanTree.leads at path
    rw [decodeBits, foldlM_cons, decodeBit]
    split at path
    · simp at path
    · simp only [Bool.and_eq_true, beq_iff_eq, List.isEmpty_iff] at path
      obtain ⟨rfl, rfl⟩ := path
      have symbol : byte.toNat ≠ huffmanEos := Nat.ne_of_lt byte.toNat_lt
      simp [symbol]
    · exact ih _ path

theorem decodeBits_ones (count : Nat) (d : HuffmanDecoder)
    (path : d.curNode.staysOnOnes count = true) :
    ∃ node, d.decodeBits (replicate count true) =
      some ⟨d.out, node, d.curDepth + count, d.padding⟩ := by
  induction count generalizing d with
  | zero => exact ⟨d.curNode, rfl⟩
  | succ count ih =>
    unfold HuffmanTree.staysOnOnes at path
    rw [replicate_succ, decodeBits, foldlM_cons, decodeBit]
    split at path
    · simp at path
    · simp at path
    · next left right _ =>
      obtain ⟨node, rest⟩ := ih ⟨d.out, .node none left right, d.curDepth + 1, d.padding⟩ path
      refine ⟨node, ?_⟩
      simp only [Bool.and_true]
      refine rest.trans ?_
      simp only [add_assoc, add_comm 1 count]

theorem decodeBits_codes (s out : List UInt8) (padding : List Bool) :
    decodeBits ⟨out, huffmanTree, 0, true⟩
        ((s.flatMap fun byte => (huffmanCode byte).bits) ++ padding) =
      decodeBits ⟨out ++ s, huffmanTree, 0, true⟩ padding := by
  induction s generalizing out with
  | nil => simp
  | cons byte s ih =>
    have first := decodeBits_of_leads ⟨out, huffmanTree, 0, true⟩ (leads_huffmanTree byte)
    rw [flatMap_cons, append_assoc, decodeBits, foldlM_append, ← decodeBits, first]
    exact (ih (out ++ [byte])).trans (by rw [append_assoc]; rfl)

end HuffmanDecoder

theorem huffmanDecode_huffmanEncode (s : List UInt8) :
    huffmanDecode (huffmanEncode s) = some s := by
  obtain ⟨padding, short, bits_eq⟩ := bitsOf_huffmanEncode s
  obtain ⟨node, padded⟩ := HuffmanDecoder.decodeBits_ones padding ⟨s, huffmanTree, 0, true⟩
    (staysOnOnes_huffmanTree short)
  have decoded : (huffmanEncode s).foldlM HuffmanDecoder.decode {} =
      some ⟨s, node, 0 + padding, true⟩ := by
    rw [HuffmanDecoder.foldlM_decode, bits_eq]
    exact (HuffmanDecoder.decodeBits_codes s [] _).trans padded
  have ended : HuffmanDecoder.endStream ⟨s, node, 0 + padding, true⟩ = true := by
    simp only [HuffmanDecoder.endStream, Bool.and_true, Bool.or_eq_true, decide_eq_true_eq]
    exact .inr (by omega)
  rw [huffmanDecode, decoded]
  simp only [bind_eq_bind, bind_some, ended, if_true]

namespace HuffmanDecoder

theorem decodeBit_node {d next : HuffmanDecoder} {bit : Bool} (goes : d.decodeBit bit = some next) :
    next.curNode ≠ .null := by
  unfold decodeBit at goes
  split at goes
  · simp at goes
  · split at goes
    · simp at goes
    · obtain rfl := some.inj goes
      exact huffmanTree_ne_null
  · obtain rfl := some.inj goes
    simp

theorem decodeBits_node {d last : HuffmanDecoder} {first more : List Bool}
    (start : d.curNode ≠ .null) (whole : d.decodeBits (first ++ more) = some last) :
    ∃ next, d.decodeBits first = some next ∧ next.curNode ≠ .null := by
  induction first generalizing d with
  | nil => exact ⟨d, rfl, start⟩
  | cons bit first ih =>
    rw [cons_append, decodeBits, foldlM_cons] at whole
    obtain ⟨next, goes, rest⟩ := bind_eq_some_iff.mp whole
    obtain ⟨reached, reached_eq, node⟩ := ih (decodeBit_node goes) rest
    refine ⟨reached, ?_, node⟩
    rw [decodeBits, foldlM_cons, goes]
    exact reached_eq

end HuffmanDecoder

/-- Strings are read back, at a node of the tree behind every bit, from encodings that differ. -/
theorem huffman_lossless : huffmanTree.nodes < 2 ^ 16 ∧ Function.Injective huffmanEncode ∧
      ∀ s, huffmanDecode (huffmanEncode s) = some s ∧
        ∀ bits, bits <+: bitsOf (huffmanEncode s) →
          ∃ d, HuffmanDecoder.decodeBits {} bits = some d ∧ d.curNode ≠ .null := by
  refine ⟨by rw [nodes_huffmanTree]; decide, fun s s' same => ?_, fun s => ⟨?_, ?_⟩⟩
  · have read := huffmanDecode_huffmanEncode s
    rw [same, huffmanDecode_huffmanEncode] at read
    exact (some.inj read).symm
  · exact huffmanDecode_huffmanEncode s
  · rintro bits ⟨more, bits_eq⟩
    have read := huffmanDecode_huffmanEncode s
    rw [huffmanDecode, HuffmanDecoder.foldlM_decode, ← bits_eq] at read
    obtain ⟨last, whole, -⟩ := bind_eq_some_iff.mp read
    exact HuffmanDecoder.decodeBits_node huffmanTree_ne_null whole

/-- The padding of `"a"`. -/
theorem huffman_lossless_a : huffmanEncode [97] = [31] ∧
    ∃ d, HuffmanDecoder.decodeBits {} (bitsOf [31]) = some d ∧ d.curNode ≠ .null := by
  have coded : huffmanEncode [97] = [31] := by decide +kernel
  refine ⟨coded, ?_⟩
  have read := (huffman_lossless.2.2 [97]).2 (bitsOf (huffmanEncode [97])) prefix_rfl
  rwa [coded] at read

theorem length_huffmanEncode (s : List UInt8) : (huffmanEncode s).length =
      ((s.map fun byte => (huffmanCode byte).bitLen).sum + 7) / 8 := by
  obtain ⟨padding, short, bits_eq⟩ := bitsOf_huffmanEncode s
  have length_eq := congrArg length bits_eq
  have codes_eq : (s.flatMap fun byte => (huffmanCode byte).bits).length =
      (s.map fun byte => (huffmanCode byte).bitLen).sum := by
    rw [length_flatMap]
    simp only [HuffmanCode.bits, length_msbBits]
  rw [length_bitsOf, length_append, length_replicate, codes_eq] at length_eq
  omega

end McBrpc.Hpack
