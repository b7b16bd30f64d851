import Mathlib.Data.List.Nodup
import Mathlib.Data.List.Infix
import Mathlib.Data.Nat.Bitwise

/-!
# Flat maps

`butil::FlatMap`: an array of chains, grown when an insertion that collides finds the map too
crowded.  An iterator is the place of its element in the order of iteration.  Two maps of one
history have the same number of buckets exactly when the map was not resized in between.
-/

namespace McBrpc

open List

def findPower2 (b : Nat) : Nat :=
  let b := b - 1
  let b := b ||| (b >>> 1)
  let b := b ||| (b >>> 2)
  let b := b ||| (b >>> 4)
  let b := b ||| (b >>> 8)
  let b := b ||| (b >>> 16)
  let b := b ||| (b >>> 32)
  b + 1

theorem le_findPower2 (b : Nat) : b ≤ findPower2 b := by
  have smear : ∀ bits shift : Nat, bits ≤ bits ||| (bits >>> shift) :=
    fun _ _ => Nat.left_le_or
  have start : b ≤ b - 1 + 1 := by omega
  refine start.trans (Nat.succ_le_succ ?_)
  exact (smear _ 1).trans <| (smear _ 2).trans <| (smear _ 4).trans <| (smear _ 8).trans <|
    (smear _ 16).trans (smear _ 32)

def flatmapRound (nbucket : Nat) : Nat := if nbucket ≤ 8 then 8 else findPower2 nbucket

theorem le_flatmapRound (nbucket : Nat) : nbucket ≤ flatmapRound nbucket := by
  unfold flatmapRound
  split
  · assumption
  · exact le_findPower2 nbucket

theorem flatmapRound_pos (nbucket : Nat) : 0 < flatmapRound nbucket := by
  unfold flatmapRound
  split
  · decide
  · exact Nat.succ_pos _

def flatmapMod (hashCode nbucket : Nat) : Nat := hashCode &&& (nbucket - 1)

theorem flatmapMod_lt (hashCode : Nat) {nbucket : Nat} (pos : 0 < nbucket) :
    flatmapMod hashCode nbucket < nbucket := by
  have bound : flatmapMod hashCode nbucket ≤ nbucket - 1 := Nat.and_le_right
  omega

/-- `FlatMap`: `buckets` holds the chain of each entry, an invalid bucket as the empty chain. -/
structure FlatMap (K V : Type*) where
  hashfn : K → Nat
  loadFactor : Nat
  size : Nat
  buckets : List (List (K × V))

namespace FlatMap

variable {K V : Type*} (m : FlatMap K V)

def nbucket : Nat := m.buckets.length

def elements : List (K × V) := m.buckets.flatten

def keys : List K := m.elements.map Prod.fst

theorem fst_mem_keys {m : FlatMap K V} {item : K × V} (mem : item ∈ m.elements) :
    item.1 ∈ m.keys := mem_map_of_mem mem

/-- What `init` makes of arguments it accepts; it refuses `nbucket` 0 and load factors outside
10..100. -/
def init (hashfn : K → Nat) (nbucket loadFactor : Nat) : FlatMap K V :=
  ⟨hashfn, loadFactor, 0, List.replicate (flatmapRound nbucket) []⟩

def index (key : K) : Nat := flatmapMod (m.hashfn key) m.nbucket

def chain (entry : Nat) : List (K × V) := m.buckets.getD entry []

def setChain (entry : Nat) (chain : List (K × V)) : FlatMap K V :=
  { m with buckets := m.buckets.set entry chain }

def isTooCrowded (size : Nat) : Bool :=
  decide (m.nbucket * m.loadFactor ≤ size * 100)

section Operations

variable [DecidableEq K]

def seek (m : FlatMap K V) (key : K) : Option V :=
  ((m.chain (m.index key)).find? fun element => element.1 = key).map Prod.snd

def erase (m : FlatMap K V) (key : K) : FlatMap K V :=
  if (m.seek key).isSome then
    { m.setChain (m.index key)
        ((m.chain (m.index key)).eraseP fun element => element.1 = key) with
      size := m.size - 1 }
  else m

def append (key : K) (value : V) : FlatMap K V :=
  { m.setChain (m.index key) (m.chain (m.index key) ++ [(key, value)]) with size := m.size + 1 }

/-- One pass of `operator[]` with the assignment to its result, given what becomes of a map that
is too crowded. -/
def assign (grow : FlatMap K V → K → V → FlatMap K V) (m : FlatMap K V) (key : K) (value : V) :
    FlatMap K V :=
  if m.chain (m.index key) = [] then m.append key value
  else if (m.seek key).isSome then
    m.setChain (m.index key)
      ((m.chain (m.index key)).map fun element => if element.1 = key then (key, value) else element)
  else if m.isTooCrowded m.size then grow m key value
  else m.append key value

/-- `operator[]` with the assignment to its result.  A resize inserts every element into a new map,
which may be resized in turn; with no fuel left a resize fails, and the node is appended. -/
def put : Nat → FlatMap K V → K → V → FlatMap K V
  | 0 => assign append
  | fuel + 1 => assign fun m key value =>
    put fuel
      (m.elements.foldl (fun grown element => put fuel grown element.1 element.2)
        (init m.hashfn (m.nbucket + 1) m.loadFactor))
      key value

/-- `operator[]` with the assignment to its result: the buckets double with each resize, so fewer
resizes than elements are ever needed. -/
def insert (m : FlatMap K V) (key : K) (value : V) : FlatMap K V := put (m.size + 1) m key value

end Operations

theorem index_eq_of {m r : FlatMap K V} (hashfn_eq : r.hashfn = m.hashfn)
    (nbucket_eq : r.nbucket = m.nbucket) (key : K) : r.index key = m.index key := by
  unfold index
  rw [hashfn_eq, nbucket_eq]

theorem chain_of_le {entry : Nat} (outside : m.nbucket ≤ entry) :
    m.chain entry = [] := getD_eq_default _ _ outside

theorem drop_buckets {entry : Nat} (inside : entry < m.nbucket) :
    m.buckets.drop entry = m.chain entry :: m.buckets.drop (entry + 1) := by
  unfold chain
  rw [getD_eq_getElem _ _ inside]
  exact drop_eq_getElem_cons inside

theorem mem_flatten_drop (entry : Nat) (item : K × V) :
    item ∈ (m.buckets.drop entry).flatten ↔
      ∃ later, entry ≤ later ∧ item ∈ m.chain later := by
  constructor
  · intro mem
    obtain ⟨found, found_mem, mem⟩ := mem_flatten.mp mem
    obtain ⟨place, inside, rfl⟩ := mem_iff_getElem.mp found_mem
    refine ⟨entry + place, by omega, ?_⟩
    unfold chain
    have bound : entry + place < m.buckets.length := by
      have := length_drop (i := entry) (l := m.buckets)
      omega
    rw [getD_eq_getElem _ _ bound]
    simpa using mem
  · rintro ⟨later, from_entry, mem⟩
    have inside : later < m.nbucket := by
      by_contra outside
      rw [m.chain_of_le (by omega)] at mem
      simp at mem
    refine mem_flatten.mpr ⟨m.chain later, ?_, mem⟩
    unfold chain
    rw [getD_eq_getElem _ _ inside]
    refine mem_iff_getElem.mpr ⟨later - entry, ?_, ?_⟩
    · simp only [length_drop]
      unfold nbucket at inside
      omega
    · simp only [getElem_drop, Nat.add_sub_cancel' from_entry]
      rfl

theorem mem_elements (item : K × V) : item ∈ m.elements ↔ ∃ entry, item ∈ m.chain entry :=
  (m.mem_flatten_drop 0 item).trans (by simp)

/-- Every element is in the chain of its entry, once. -/
structure Lawful (m : FlatMap K V) : Prop where
  nbucket_pos : 0 < m.nbucket
  index_eq : ∀ entry, ∀ element ∈ m.chain entry, m.index element.1 = entry
  nodup : ∀ entry, ((m.chain entry).map Prod.fst).Nodup

namespace Lawful

variable {m : FlatMap K V}

theorem index_lt (lawful : m.Lawful) (key : K) : m.index key < m.nbucket :=
  flatmapMod_lt _ lawful.nbucket_pos

theorem mem_elements_iff (lawful : m.Lawful) (item : K × V) :
    item ∈ m.elements ↔ item ∈ m.chain (m.index item.1) := by
  rw [m.mem_elements]
  constructor
  · rintro ⟨entry, mem⟩
    rwa [lawful.index_eq entry item mem]
  · intro mem
    exact ⟨_, mem⟩

theorem mem_flatten_drop_iff (lawful : m.Lawful) (entry : Nat) (item : K × V) :
    item ∈ (m.buckets.drop entry).flatten ↔
      entry ≤ m.index item.1 ∧ item ∈ m.elements := by
  rw [m.mem_flatten_drop, lawful.mem_elements_iff]
  constructor
  · rintro ⟨later, from_entry, mem⟩
    rw [lawful.index_eq later item mem]
    exact ⟨from_entry, mem⟩
  · rintro ⟨from_entry, mem⟩
    exact ⟨_, from_entry, mem⟩

theorem nodup_keys (lawful : m.Lawful) : m.keys.Nodup := by
  unfold keys elements
  rw [map_flatten, nodup_flatten]
  constructor
  · intro names names_mem
    obtain ⟨chain, chain_mem, rfl⟩ := mem_map.mp names_mem
    obtain ⟨entry, inside, rfl⟩ := mem_iff_getElem.mp chain_mem
    have once := lawful.nodup entry
    rwa [chain, getD_eq_getElem _ _ inside] at once
  · refine pairwise_iff_getElem.mpr ?_
    intro first second first_lt second_lt less
    simp only [length_map] at first_lt second_lt
    have entry_of : ∀ entry (inside : entry < m.buckets.length), ∀ item ∈ m.buckets[entry],
        m.index item.1 = entry := by
      intro entry inside item mem
      refine lawful.index_eq entry item ?_
      rwa [chain, getD_eq_getElem _ _ inside]
    simp only [getElem_map]
    intro key in_first in_second
    obtain ⟨left, left_mem, rfl⟩ := mem_map.mp in_first
    obtain ⟨right, right_mem, same⟩ := mem_map.mp in_second
    have left_index := entry_of first first_lt left left_mem
    have right_index := entry_of second second_lt right right_mem
    rw [same] at right_index
    omega

end Lawful

theorem lawful_init (hashfn : K → Nat) (nbucket loadFactor : Nat) :
    (init hashfn nbucket loadFactor : FlatMap K V).Lawful := by
  have empty : ∀ entry, (init hashfn nbucket loadFactor : FlatMap K V).chain entry = [] := by
    intro entry
    simp [chain, init, getD_eq_getElem?_getD, getElem?_replicate]
    split <;> rfl
  refine ⟨?_, ?_, ?_⟩
  · simp only [FlatMap.nbucket, init, length_replicate]
    exact flatmapRound_pos nbucket
  · intro entry item mem
    simp [empty] at mem
  · intro entry
    simp [empty]

@[simp]
theorem elements_init (hashfn : K → Nat) (nbucket loadFactor : Nat) :
    (init hashfn nbucket loadFactor : FlatMap K V).elements = [] := by
  simp [elements, init]

@[simp]
theorem nbucket_setChain (m : FlatMap K V) (entry : Nat) (chain : List (K × V)) :
    (m.setChain entry chain).nbucket = m.nbucket := length_set

theorem chain_setChain (m : FlatMap K V) {entry : Nat} (inside : entry < m.nbucket)
    (chain : List (K × V)) (other : Nat) :
    (m.setChain entry chain).chain other = if other = entry then chain else m.chain other := by
  simp only [FlatMap.chain, setChain, getD_eq_getElem?_getD]
  split
  case isTrue same =>
    subst same
    rw [getElem?_set_self inside]
    rfl
  case isFalse ne =>
    rw [getElem?_set_ne (Ne.symm ne)]

section Changes

variable [DecidableEq K] {m r : FlatMap K V} {key : K} {value : V}

theorem seek_isSome_iff (lawful : m.Lawful) : (m.seek key).isSome ↔ key ∈ m.keys := by
  unfold seek keys
  rw [Option.isSome_map, find?_isSome, mem_map]
  constructor
  · rintro ⟨item, mem, same⟩
    exact ⟨item, (m.mem_elements item).mpr ⟨_, mem⟩, by simpa using same⟩
  · rintro ⟨item, mem, rfl⟩
    exact ⟨item, (lawful.mem_elements_iff item).mp mem, by simp⟩

theorem seek_eq_none_iff (lawful : m.Lawful) : m.seek key = none ↔ key ∉ m.keys := by
  rw [← Option.isNone_iff_eq_none, ← seek_isSome_iff lawful, ← Option.not_isSome]
  simp

theorem mem_elements_of_seek (found : m.seek key = some value) : (key, value) ∈ m.elements := by
  obtain ⟨item, element_eq, rfl⟩ := Option.map_eq_some_iff.mp found
  obtain rfl : item.1 = key := by simpa using find?_some element_eq
  exact (m.mem_elements item).mpr ⟨_, mem_of_find?_eq_some element_eq⟩

/-- What an insertion of an absent key does, through any number of resizes. -/
structure Inserted (m : FlatMap K V) (key : K) (value : V) (r : FlatMap K V) : Prop where
  lawful : r.Lawful
  hashfn_eq : r.hashfn = m.hashfn
  nbucket_le : m.nbucket ≤ r.nbucket
  mem_iff : ∀ element, element ∈ r.elements ↔ element ∈ m.elements ∨ element = (key, value)
  chain_eq : r.nbucket = m.nbucket → ∀ entry, r.chain entry =
    if entry = m.index key then m.chain entry ++ [(key, value)] else m.chain entry

omit [DecidableEq K] in
theorem Inserted.not_mem_keys (ins : Inserted m key value r) {other : K}
    (absent : other ∉ m.keys) (ne : other ≠ key) : other ∉ r.keys := by
  intro present
  obtain ⟨item, element_mem, rfl⟩ := mem_map.mp present
  obtain old | rfl := (ins.mem_iff item).mp element_mem
  · exact absent (fst_mem_keys old)
  · exact ne rfl

omit [DecidableEq K] in
theorem append_inserted (lawful : m.Lawful) (absent : key ∉ m.keys) :
    Inserted m key value (m.append key value) := by
  have nbucket_eq : (m.append key value).nbucket = m.nbucket := nbucket_setChain ..
  have index_same : ∀ other, (m.append key value).index other = m.index other :=
    index_eq_of rfl nbucket_eq
  have chain_eq : ∀ entry, (m.append key value).chain entry =
      if entry = m.index key then m.chain entry ++ [(key, value)] else m.chain entry := by
    intro entry
    have set_eq := m.chain_setChain (lawful.index_lt key)
      (m.chain (m.index key) ++ [(key, value)]) entry
    refine set_eq.trans ?_
    split
    case isTrue same => rw [same]
    case isFalse => rfl
  refine ⟨⟨nbucket_eq ▸ lawful.nbucket_pos, ?_, ?_⟩, rfl, nbucket_eq.ge, ?_, fun _ => chain_eq⟩
  · intro entry item mem
    rw [index_same]
    rw [chain_eq] at mem
    split at mem
    case isTrue same =>
      obtain old | new := mem_append.mp mem
      · exact lawful.index_eq entry item old
      · rw [mem_singleton.mp new, same]
    case isFalse => exact lawful.index_eq entry item mem
  · intro entry
    rw [chain_eq]
    split
    case isTrue same =>
      rw [map_append, nodup_append]
      refine ⟨lawful.nodup entry, by simp, ?_⟩
      intro other mem new new_mem
      obtain ⟨item, element_mem, rfl⟩ := mem_map.mp mem
      obtain rfl : new = key := by simpa using new_mem
      intro equal
      exact absent (equal ▸ mem_map_of_mem ((m.mem_elements item).mpr ⟨_, element_mem⟩))
    case isFalse => exact lawful.nodup entry
  · intro item
    rw [mem_elements, mem_elements]
    constructor
    · rintro ⟨entry, mem⟩
      rw [chain_eq] at mem
      split at mem
      case isTrue =>
        obtain old | new := mem_append.mp mem
        · exact .inl ⟨entry, old⟩
        · exact .inr (mem_singleton.mp new)
      case isFalse => exact .inl ⟨entry, mem⟩
    · rintro (⟨entry, mem⟩ | rfl)
      · refine ⟨entry, ?_⟩
        rw [chain_eq]
        split
        · exact mem_append_left _ mem
        · exact mem
      · refine ⟨m.index key, ?_⟩
        simp [chain_eq]

theorem assign_inserted (grow : FlatMap K V → K → V → FlatMap K V) (lawful : m.Lawful)
    (absent : key ∉ m.keys) (grown : Inserted m key value (grow m key value)) :
    Inserted m key value (assign grow m key value) := by
  have missing : ¬ (m.seek key).isSome := mt (seek_isSome_iff lawful).mp absent
  unfold assign
  split
  · exact append_inserted lawful absent
  · split
    · exact grown
    · exact append_inserted lawful absent

theorem foldl_inserted {insertOne : FlatMap K V → K → V → FlatMap K V}
    (inserts : ∀ {m : FlatMap K V} {key : K} {value : V}, m.Lawful → key ∉ m.keys →
      Inserted m key value (insertOne m key value)) (new : List (K × V)) (lawful : m.Lawful)
    (once : (new.map Prod.fst).Nodup) (absent : ∀ item ∈ new, item.1 ∉ m.keys) :
    let r := new.foldl (fun grown item => insertOne grown item.1 item.2) m
    r.Lawful ∧ r.hashfn = m.hashfn ∧ m.nbucket ≤ r.nbucket ∧
      ∀ item, item ∈ r.elements ↔ item ∈ m.elements ∨ item ∈ new := by
  induction new generalizing m with
  | nil => exact ⟨lawful, rfl, le_rfl, by simp⟩
  | cons first new ih =>
    obtain ⟨fresh, once⟩ := nodup_cons.mp once
    have one : Inserted m first.1 first.2 (insertOne m first.1 first.2) :=
      inserts lawful (absent first mem_cons_self)
    have still_absent : ∀ item ∈ new, item.1 ∉ (insertOne m first.1 first.2).keys := by
      intro item element_mem
      refine one.not_mem_keys (absent item (mem_cons_of_mem _ element_mem)) ?_
      intro same
      exact fresh (same ▸ mem_map_of_mem element_mem)
    obtain ⟨rest_lawful, rest_hashfn, rest_nbucket, rest_mem⟩ :=
      ih one.lawful once still_absent
    refine ⟨rest_lawful, rest_hashfn.trans one.hashfn_eq, one.nbucket_le.trans rest_nbucket, ?_⟩
    intro item
    have split_first := one.mem_iff item
    simp only [foldl_cons, mem_cons, rest_mem, split_first]
    tauto

theorem put_inserted (fuel : Nat) (lawful : m.Lawful) (absent : key ∉ m.keys) :
    Inserted m key value (put fuel m key value) := by
  induction fuel generalizing m key value with
  | zero => exact assign_inserted append lawful absent (append_inserted lawful absent)
  | succ fuel ih =>
    refine assign_inserted _ lawful absent ?_
    have fresh := lawful_init (V := V) m.hashfn (m.nbucket + 1) m.loadFactor
    obtain ⟨new_lawful, new_hashfn, new_nbucket, new_mem⟩ :=
      foldl_inserted ih m.elements fresh lawful.nodup_keys (by simp [keys])
    generalize m.elements.foldl _ _ = rebuilt at *
    have same_elements : ∀ item, item ∈ rebuilt.elements ↔ item ∈ m.elements := by
      intro item
      simp [new_mem]
    have still_absent : key ∉ rebuilt.keys := by
      intro present
      obtain ⟨item, element_mem, rfl⟩ := mem_map.mp present
      exact absent (mem_map_of_mem ((same_elements item).mp element_mem))
    have bigger : m.nbucket < rebuilt.nbucket := by
      have rounded := le_flatmapRound (m.nbucket + 1)
      simp only [FlatMap.nbucket, init, length_replicate] at new_nbucket rounded ⊢
      omega
    have last : Inserted rebuilt key value (put fuel rebuilt key value) :=
      ih new_lawful still_absent
    refine ⟨last.lawful, last.hashfn_eq.trans new_hashfn, ?_, ?_, ?_⟩
    · exact bigger.le.trans last.nbucket_le
    · intro item
      rw [last.mem_iff, same_elements]
    · intro same
      have := last.nbucket_le
      omega

theorem insert_inserted (lawful : m.Lawful) (absent : key ∉ m.keys) :
    Inserted m key value (m.insert key value) := put_inserted _ lawful absent

theorem insert_eq_append (lawful : m.Lawful) (absent : key ∉ m.keys)
    (room : m.size * 100 < m.nbucket * m.loadFactor) : m.insert key value = m.append key value := by
  have missing : ¬ (m.seek key).isSome := mt (seek_isSome_iff lawful).mp absent
  have uncrowded : ¬ m.isTooCrowded m.size = true := by
    simpa [isTooCrowded] using room
  unfold insert put assign
  rw [if_neg missing, if_neg uncrowded, ite_self]

omit [DecidableEq K] in
theorem setChain_self (m : FlatMap K V) (entry : Nat) : m.setChain entry (m.chain entry) = m := by
  have same : m.buckets.set entry (m.buckets.getD entry []) = m.buckets := by
    refine ext_getElem? fun other => ?_
    rw [getElem?_set, getD_eq_getElem?_getD]
    split
    case isTrue here =>
      subst here
      split
      case isTrue inside => simp [inside]
      case isFalse outside => simp [getElem?_eq_none (not_lt.mp outside)]
    case isFalse => rfl
  unfold setChain chain
  rw [same]

theorem foldl_insert_eq (new : List (K × V)) {entry : Nat} (lawful : m.Lawful)
    (once : (new.map Prod.fst).Nodup) (absent : ∀ item ∈ new, item.1 ∉ m.keys)
    (together : ∀ item ∈ new, m.index item.1 = entry)
    (room : (m.size + new.length) * 100 < m.nbucket * m.loadFactor) :
    new.foldl (fun grown item => grown.insert item.1 item.2) m =
      { m.setChain entry (m.chain entry ++ new) with size := m.size + new.length } := by
  induction new generalizing m with
  | nil => rw [append_nil, setChain_self]; rfl
  | cons first new ih =>
    have here := together first mem_cons_self
    have fresh := absent first mem_cons_self
    obtain ⟨different, once⟩ := nodup_cons.mp once
    have ins : Inserted m first.1 first.2 (m.append first.1 first.2) :=
      append_inserted lawful fresh
    rw [length_cons] at room
    rw [foldl_cons, insert_eq_append lawful fresh (by omega)]
    have nbucket_eq : (m.append first.1 first.2).nbucket = m.nbucket := nbucket_setChain ..
    rw [ih ins.lawful once]
    · have chain_eq := ins.chain_eq nbucket_eq entry
      rw [if_pos here.symm] at chain_eq
      rw [chain_eq]
      simp only [append, setChain, here, set_set, length_cons, append_assoc, singleton_append]
      congr 1
      omega
    · intro item mem
      refine ins.not_mem_keys (absent item (mem_cons_of_mem _ mem)) ?_
      intro same
      exact different (same ▸ mem_map_of_mem mem)
    · intro item mem
      rw [index_eq_of ins.hashfn_eq nbucket_eq]
      exact together item (mem_cons_of_mem _ mem)
    · rw [nbucket_eq]
      change (m.size + 1 + new.length) * 100 < m.nbucket * m.loadFactor
      omega

end Changes

/-- The entry of an iterator and the place of its node in the chain. -/
def locate : List (List (K × V)) → Nat → Nat × Nat
  | [], _ => (0, 0)
  | chain :: buckets, it =>
    if it < chain.length then (0, it)
    else
      let later := locate buckets (it - chain.length)
      (later.1 + 1, later.2)

/-- `const_iterator(this, entry)`: the first element at the entry or after it. -/
def iteratorAt (m : FlatMap K V) (entry : Nat) : Nat := (m.buckets.take entry).flatten.length

/-- `PositionHint`; the key is absent where the source has a default one. -/
structure PositionHint (K : Type*) where
  nbucket : Nat
  offset : Nat
  atEntry : Bool
  key : Option K
  deriving DecidableEq

def saveIterator (m : FlatMap K V) (it : Nat) : PositionHint K where
  nbucket := m.nbucket
  offset := (locate m.buckets it).1
  atEntry := decide (it ≠ m.elements.length ∧ (locate m.buckets it).2 = 0)
  key := (m.elements[it]?).map Prod.fst

def restoreIterator [DecidableEq K] (m : FlatMap K V) (hint : PositionHint K) : Nat :=
  if hint.nbucket ≠ m.nbucket then 0
  else if m.nbucket ≤ hint.offset then m.elements.length
  else if hint.atEntry then m.iteratorAt hint.offset
  else if m.chain hint.offset = [] then m.iteratorAt (hint.offset + 1)
  else
    match (m.chain hint.offset).findIdx? fun element => some element.1 = hint.key with
    | some node => m.iteratorAt hint.offset + node
    | none => m.iteratorAt hint.offset

end FlatMap

end McBrpc
