import McBrpc.LbStat.MultiLevelHash

/-!
# Lookups in the multi-level hash

The levels laid out by `init` do not overlap, so the slots of a key form a probe path.  `find` and
`insert` are the search and the insertion of the probe table, and a run of calls keeps, for every
key, the value last accepted.
-/

namespace McBrpc

open List HashSlot ProbeTable
namespace MultiLevelHash

open Execution

/-- Levels that follow one another from a slot on. -/
def Consecutive : Nat → List HashLevel → Prop
  | _, [] => True
  | pos, level :: levels => level.hashTable = pos ∧ Consecutive (pos + level.itemNum) levels

theorem consecutive_layLevels (count pos curItemNum : Nat) :
    Consecutive pos (layLevels count pos curItemNum) := by
  induction count generalizing pos curItemNum with
  | zero => trivial
  | succ count ih => exact ⟨rfl, ih _ _⟩

theorem length_layLevels (count pos curItemNum : Nat) :
    (layLevels count pos curItemNum).length = count := by
  induction count generalizing pos curItemNum with
  | zero => rfl
  | succ count ih => rw [layLevels, length_cons, ih]

/-- The level in whose part of the data area a slot lies. -/
def levelOf : List HashLevel → Nat → Nat
  | [], _ => 0
  | level :: levels, slot =>
    if slot < level.hashTable + level.itemNum then 0 else levelOf levels slot + 1

theorem levelOf_mono (levels : List HashLevel) {slot slot' : Nat} (le : slot ≤ slot') :
    levelOf levels slot ≤ levelOf levels slot' := by
  induction levels with
  | nil => exact le_rfl
  | cons level levels ih =>
    rw [levelOf, levelOf]
    split_ifs <;> omega

theorem bkdrHash_lt {max : Nat} (pos : 0 < max) (str : List UInt8) : bkdrHash str max < max :=
  Nat.mod_lt _ pos

theorem Consecutive.bounds {pos index : Nat} {levels : List HashLevel} {level : HashLevel}
    (consecutive : Consecutive pos levels) (found : levels[index]? = some level) :
    pos ≤ level.hashTable ∧ level.hashTable + level.itemNum ≤ pos + slotNum levels := by
  induction levels generalizing pos index with
  | nil => simp at found
  | cons first levels ih =>
    obtain ⟨rfl, rest⟩ := consecutive
    rw [slotNum_cons]
    cases index with
    | zero =>
      obtain rfl : first = level := by simpa using found
      omega
    | succ index =>
      have bounds := ih rest (by simpa using found)
      omega

theorem Consecutive.levelOf_eq {pos index slot : Nat} {levels : List HashLevel} {level : HashLevel}
    (consecutive : Consecutive pos levels) (found : levels[index]? = some level)
    (lower : level.hashTable ≤ slot) (upper : slot < level.hashTable + level.itemNum) :
    levelOf levels slot = index := by
  induction levels generalizing pos index with
  | nil => simp at found
  | cons first levels ih =>
    obtain ⟨rfl, rest⟩ := consecutive
    cases index with
    | zero =>
      obtain rfl : first = level := by simpa using found
      simp [levelOf, upper]
    | succ index =>
      have found' : levels[index]? = some level := by simpa using found
      have bounds := rest.bounds found'
      rw [levelOf, if_neg (by omega), ih rest found']

/-- A hash after a successful `init` that gave every level a slot. -/
structure Ready (Slot : Type) [HashSlot Slot] (hash : MultiLevelHash) : Prop where
  initDone : hash.initDone = true
  length_levels : hash.levels.length = hash.levelNum
  consecutive : Consecutive 0 hash.levels
  positive : ∀ level ∈ hash.levels, 0 < level.itemNum
  fits : slotNum hash.levels * size Slot ≤ hash.dataLen

section Table

variable {Slot : Type} [HashSlot Slot] {hash : MultiLevelHash}

theorem ready_of_init {made : MultiLevelHash} (success : made.init Slot = (0, hash))
    (pos : ∀ level ∈ hash.levels, 0 < level.itemNum) : hash.Ready Slot := by
  simp only [init] at success
  split at success
  · simp at success
  · split at success
    · simp at success
    · next fits =>
      obtain rfl := (Prod.mk.inj success).2
      exact ⟨rfl, length_layLevels _ _ _, consecutive_layLevels _ _ _, pos, by simpa using fits⟩

theorem init_eq_zero {made : MultiLevelHash} (shallow : made.levelNum ≤ maxHashLevel)
    (attached : made.dataPos ≠ 0)
    (fits : slotNum (layLevels made.levelNum 0 made.itemNum) * size Slot ≤ made.dataLen) :
    made.init Slot =
      (0, { made with
        levels := layLevels made.levelNum 0 made.itemNum
        initDone := true }) := by
  simp only [init]
  rw [if_neg (not_or.mpr ⟨not_lt.mpr shallow, attached⟩), if_neg (not_lt.mpr fits)]

theorem Ready.slot_bounds (ready : hash.Ready Slot) {level : HashLevel}
    (level_mem : level ∈ hash.levels) (key : List UInt8) :
    level.hashTable ≤ level.slot key ∧ level.slot key < level.hashTable + level.itemNum := by
  have bound := bkdrHash_lt (ready.positive level level_mem) key
  rw [HashLevel.slot]
  omega

/-- The levels as a table probed along the slots of a key. -/
@[simps vacant keyOf path]
def Ready.table (ready : hash.Ready Slot) : ProbeTable (List UInt8) Nat Slot where
  vacant := []
  keyOf := HashSlot.key
  slots := {slot | slot < slotNum hash.levels}
  path key := hash.levels.map fun level => level.slot key
  path_subset := by
    intro key slot slot_mem
    obtain ⟨level, level_mem, rfl⟩ := mem_map.mp slot_mem
    obtain ⟨index, found⟩ := mem_iff_getElem?.mp level_mem
    have area := ready.consecutive.bounds found
    have bounds := ready.slot_bounds level_mem key
    show level.slot key < slotNum hash.levels
    omega
  rank := levelOf hash.levels
  rank_path := by
    intro key index slot found
    rw [getElem?_map, Option.map_eq_some_iff] at found
    obtain ⟨level, found, rfl⟩ := found
    have bounds := ready.slot_bounds (mem_of_getElem? found) key
    exact ready.consecutive.levelOf_eq found bounds.1 bounds.2

theorem insertIn_eq_find? (slots : Nat → Slot) (val : Slot) (levels : List HashLevel) :
    insertIn slots val levels =
      (levels.map fun level => level.slot (HashSlot.key val)).find? fun slot =>
        decide (HashSlot.key (slots slot) = [] ∨ HashSlot.key (slots slot) = HashSlot.key val) := by
  induction levels with
  | nil => rfl
  | cons level levels ih =>
    rw [insertIn, map_cons, find?_cons, ih]
    by_cases stops : HashSlot.key (slots (level.slot (HashSlot.key val))) = [] ∨
        HashSlot.key (slots (level.slot (HashSlot.key val))) = HashSlot.key val
    · simp [stops]
    · simp [stops]

theorem insert_cases (hash : MultiLevelHash) (slots : Nat → Slot) (val : Slot) :
    (∃ slot, hash.insert slots val = (Function.update slots slot val, some slot)) ∨
      hash.insert slots val = (slots, none) := by
  rw [MultiLevelHash.insert]
  split
  · cases insertIn slots val hash.levels with
    | none => exact .inr rfl
    | some slot => exact .inl ⟨slot, rfl⟩
  · exact .inr rfl

theorem Ready.insert_eq (ready : hash.Ready Slot) (slots : Nat → Slot) (val : Slot) :
    hash.insert slots val =
      (ready.table.insert slots val, ready.table.seek slots (HashSlot.key val)) := by
  have seek_eq : insertIn slots val hash.levels = ready.table.seek slots (HashSlot.key val) :=
    insertIn_eq_find? slots val hash.levels
  rw [MultiLevelHash.insert, if_pos ready.initDone, seek_eq, ProbeTable.insert, table_keyOf]
  cases ready.table.seek slots (HashSlot.key val) with
  | none | some => rfl

variable {slots : Nat → Slot} {key : List UInt8} {slot : Nat}

theorem findIn_of_find?_some {levels : List HashLevel}
    (found : (levels.map fun level => level.slot key).find? (fun slot =>
      decide (HashSlot.key (slots slot) = [] ∨ HashSlot.key (slots slot) = key)) = some slot)
    (val : Option Nat) :
    findIn slots key levels val =
      (if HashSlot.key (slots slot) = [] then hashNotFound else hashSuccess, some slot) := by
  induction levels generalizing val with
  | nil => simp at found
  | cons level levels ih =>
    rw [map_cons, find?_cons] at found
    by_cases stops : HashSlot.key (slots (level.slot key)) = [] ∨
        HashSlot.key (slots (level.slot key)) = key
    · obtain rfl : level.slot key = slot := by simpa [stops] using found
      rcases stops with vacant | same
      · simp [findIn, vacant]
      · simp only [findIn, same, if_true]
        split <;> rfl
    · simp only [stops, decide_false] at found
      rw [not_or] at stops
      simp only [findIn, stops, if_false]
      exact ih found _

theorem findIn_of_find?_none {levels : List HashLevel}
    (missing : (levels.map fun level => level.slot key).find? (fun slot =>
      decide (HashSlot.key (slots slot) = [] ∨ HashSlot.key (slots slot) = key)) = none)
    (val : Option Nat) : (findIn slots key levels val).1 = hashNotFound := by
  induction levels generalizing val with
  | nil => rfl
  | cons level levels ih =>
    rw [find?_eq_none, map_cons, forall_mem_cons, ← find?_eq_none] at missing
    obtain ⟨refused, missing⟩ := missing
    rw [decide_eq_true_eq, not_or] at refused
    simp only [findIn, refused, if_false]
    exact ih missing _

variable (ready : hash.Ready Slot)
include ready

theorem Ready.find_of_seek (found : ready.table.seek slots key = some slot) : hash.find slots key =
      (if HashSlot.key (slots slot) = [] then hashNotFound else hashSuccess, some slot) := by
  rw [find, if_pos ready.initDone]
  exact findIn_of_find?_some found none

theorem Ready.find_of_lookup_some {val : Slot} (found : ready.table.lookup slots key = some val) :
    ∃ slot, hash.find slots key = (hashSuccess, some slot) ∧ slots slot = val := by
  obtain ⟨slot, seek_eq, value_eq⟩ := Option.bind_eq_some_iff.mp found
  rw [table_keyOf, table_vacant] at value_eq
  split at value_eq
  · simp at value_eq
  · next used =>
    refine ⟨slot, ?_, Option.some.inj value_eq⟩
    rw [ready.find_of_seek seek_eq, if_neg used]

theorem Ready.find_of_lookup_none
    (missing : ready.table.lookup slots key = none) : (hash.find slots key).1 = hashNotFound := by
  cases seek_eq : ready.table.seek slots key with
  | none =>
    rw [find, if_pos ready.initDone]
    exact findIn_of_find?_none seek_eq none
  | some slot =>
    rw [ready.find_of_seek seek_eq]
    by_cases vacant : HashSlot.key (slots slot) = []
    · rw [if_pos vacant]
    · simp [ProbeTable.lookup, seek_eq, vacant] at missing

theorem Ready.findValue_eq (slots : Nat → Slot) (key : List UInt8) : hash.findValue slots key =
      (if (ready.table.lookup slots key).isSome then hashSuccess else hashNotFound,
        ready.table.lookup slots key) := by
  cases found : ready.table.lookup slots key with
  | some val =>
    obtain ⟨slot, find_eq, rfl⟩ := ready.find_of_lookup_some found
    simp [findValue, find_eq]
  | none =>
    have code_eq := ready.find_of_lookup_none found
    simp [findValue, code_eq, hashNotFound, hashSuccess]

theorem Ready.reset_eq_zero (slots : Nat → Slot)
    (inside : slot < slotNum hash.levels) : hash.reset slots slot = zero := by
  have area := (Nat.mul_le_mul_right _ inside).trans ready.fits
  rw [reset, if_pos ready.initDone]
  exact if_pos area

theorem Ready.placed_of_zero (zeroed : ∀ slot < slotNum hash.levels, slots slot = zero) :
    ready.table.Placed slots := by
  apply placed_of_vacant
  intro slot inside
  show HashSlot.key (slots slot) = []
  rw [zeroed slot inside, HashSlot.key_zero]

end Table

inductive HashCall (Slot : Type)
  | insert (val : Slot)
  | find (key : List UInt8)
  | reset

/-- The slots, and the values accepted by `insert` since the last `reset`, the latest first. -/
structure HashRun (Slot : Type) where
  slots : Nat → Slot
  accepted : List Slot

variable {Slot : Type} [HashSlot Slot]

def HashCall.Keyed : HashCall Slot → Prop
  | .insert val => HashSlot.key val ≠ []
  | .find key => key ≠ []
  | .reset => True

def execute (hash : MultiLevelHash) (run : HashRun Slot) : HashCall Slot → HashRun Slot
  | .insert val =>
    match hash.insert run.slots val with
    | (slots, some _) => ⟨slots, val :: run.accepted⟩
    | (slots, none) => ⟨slots, run.accepted⟩
  | .find _ => run
  | .reset => ⟨hash.reset run.slots, []⟩

/-- The value of the latest accepted insertion of a key. -/
def HashRun.latest (run : HashRun Slot) (key : List UInt8) : Option Slot :=
  run.accepted.find? fun val => decide (HashSlot.key val = key)

/-- The hash maps every key to its latest value, each in the one slot where it belongs. -/
structure MapsLatest (hash : MultiLevelHash) (run : HashRun Slot) : Prop where
  distinct : ∀ slot < slotNum hash.levels, ∀ slot' < slotNum hash.levels,
    HashSlot.key (run.slots slot) ≠ [] →
      HashSlot.key (run.slots slot) = HashSlot.key (run.slots slot') → slot = slot'
  leveled : ∀ (index : Nat) (level : HashLevel), hash.levels[index]? = some level →
    ∀ slot, level.hashTable ≤ slot → slot < level.hashTable + level.itemNum →
      HashSlot.key (run.slots slot) ≠ [] →
        level.slot (HashSlot.key (run.slots slot)) = slot ∧
        ∀ index' < index, ∃ (lower : HashLevel) (other : List UInt8),
          hash.levels[index']? = some lower ∧
          HashSlot.key (run.slots (lower.slot (HashSlot.key (run.slots slot)))) = other ∧
          other ≠ [] ∧ other ≠ HashSlot.key (run.slots slot)
  found : ∀ key, key ≠ [] → ∀ val, run.latest key = some val →
    ∃ slot, hash.find run.slots key = (hashSuccess, some slot) ∧ run.slots slot = val
  missing : ∀ key, key ≠ [] → run.latest key = none →
    (hash.find run.slots key).1 = hashNotFound
  reinserted : ∀ val, HashSlot.key val ≠ [] → run.latest (HashSlot.key val) ≠ none →
    ∃ slot, hash.find run.slots (HashSlot.key val) = (hashSuccess, some slot) ∧
      hash.insert run.slots val = (Function.update run.slots slot val, some slot)
  refused : ∀ val, (hash.insert run.slots val).2 = none →
    (hash.insert run.slots val).1 = run.slots

variable {hash : MultiLevelHash}

/-- The table is placed and looks up the latest values. -/
def Ready.Agrees (ready : hash.Ready Slot) (run : HashRun Slot) : Prop :=
  ready.table.Placed run.slots ∧ ∀ key, key ≠ [] → ready.table.lookup run.slots key = run.latest key

theorem Ready.agrees_of_zero (ready : hash.Ready Slot) {slots : Nat → Slot}
    (zeroed : ∀ slot < slotNum hash.levels, slots slot = zero) :
    ready.Agrees ⟨slots, []⟩ := by
  have placed := ready.placed_of_zero zeroed
  refine ⟨placed, ?_⟩
  intro key ne
  rw [show HashRun.latest ⟨slots, []⟩ key = none from rfl, placed.lookup_eq_none_iff]
  intro slot inside holds
  have vacant : HashSlot.key (slots slot) = [] := by rw [zeroed slot inside, HashSlot.key_zero]
  exact holds.2 (holds.1.symm.trans vacant)

theorem Ready.agrees_execute (ready : hash.Ready Slot) {run : HashRun Slot} {call : HashCall Slot}
    (agrees : ready.Agrees run) (keyed : call.Keyed) : ready.Agrees (hash.execute run call) := by
  obtain ⟨placed, found⟩ := agrees
  cases call with
  | find key => exact ⟨placed, found⟩
  | reset => exact ready.agrees_of_zero fun slot inside => ready.reset_eq_zero run.slots inside
  | insert val =>
    have placed' := placed.insert val
    rw [execute, ready.insert_eq]
    cases seek_eq : ready.table.seek run.slots (HashSlot.key val) with
    | some slot =>
      refine ⟨placed', fun key ne => ?_⟩
      rw [placed.lookup_insert keyed seek_eq, found key ne]
      by_cases same : key = HashSlot.key val
      · simp [HashRun.latest, same]
      · simp [HashRun.latest, same, Ne.symm same]
    | none =>
      have unchanged : ready.table.insert run.slots val = run.slots := by
        rw [ProbeTable.insert, table_keyOf, seek_eq]
      refine ⟨placed', fun key ne => ?_⟩
      rw [unchanged]
      exact found key ne

theorem Ready.mapsLatest (ready : hash.Ready Slot) {run : HashRun Slot}
    (agrees : ready.Agrees run) : MapsLatest hash run := by
  obtain ⟨placed, found⟩ := agrees
  constructor
  · intro slot inside slot' inside' occupied same
    exact placed.eq_of_holds inside inside' ⟨rfl, occupied⟩ ⟨same.symm, occupied⟩
  · intro index level level_eq slot lower upper occupied
    have inside : slot < slotNum hash.levels := by
      have area := ready.consecutive.bounds level_eq
      omega
    have seek_eq := placed slot inside _ ⟨rfl, occupied⟩
    have rank_eq : ready.table.rank slot = index :=
      ready.consecutive.levelOf_eq level_eq lower upper
    constructor
    · have slot_eq := getElem?_rank (seek_mem_path seek_eq)
      rw [rank_eq, table_path, getElem?_map, level_eq] at slot_eq
      exact Option.some.inj slot_eq
    · intro index' lower'
      obtain ⟨prior, other, earlier_eq, holds, differ⟩ :=
        passed_of_seek seek_eq (rank_eq ▸ lower')
      rw [table_path, getElem?_map, Option.map_eq_some_iff] at earlier_eq
      obtain ⟨level', level'_eq, rfl⟩ := earlier_eq
      exact ⟨level', other, level'_eq, holds.1, holds.2, differ⟩
  · intro key ne val latest_eq
    exact ready.find_of_lookup_some ((found key ne).trans latest_eq)
  · intro key ne latest_eq
    exact ready.find_of_lookup_none ((found key ne).trans latest_eq)
  · intro val ne present
    rw [← found _ ne] at present
    obtain ⟨stored, stored_eq⟩ := Option.ne_none_iff_exists'.mp present
    obtain ⟨slot, mem, holds, -⟩ := placed.lookup_eq_some_iff.mp stored_eq
    have seek_eq := placed slot mem _ holds
    have same : HashSlot.key (run.slots slot) = HashSlot.key val := holds.1
    have occupied := same ▸ ne
    refine ⟨slot, ?_, ?_⟩
    · rw [ready.find_of_seek seek_eq, if_neg occupied]
    · rw [ready.insert_eq, ProbeTable.insert, table_keyOf, seek_eq]
  · intro val refused
    rw [ready.insert_eq] at refused ⊢
    rw [ProbeTable.insert, table_keyOf, show ready.table.seek _ _ = none from refused]

/-- From zeroed memory, every run of calls with keys maps each key to its latest value. -/
theorem everyState_mapsLatest {dataPos dataLen itemNum levelNum : Nat}
    (success : (new dataPos dataLen itemNum levelNum).init Slot = (0, hash))
    (positive : ∀ level ∈ hash.levels, 0 < level.itemNum) {slots : Nat → Slot}
    (zeroed : ∀ slot < slotNum hash.levels, slots slot = zero)
    {calls : List (HashCall Slot)} (keyed : ∀ call ∈ calls, call.Keyed) :
    EveryState hash.execute (MapsLatest hash) ⟨slots, []⟩ calls := by
  have ready := ready_of_init success positive
  intro history isPrefix
  apply ready.mapsLatest
  apply foldl_invariant ready.Agrees history (ready.agrees_of_zero zeroed)
  intro run call call_mem agrees
  exact ready.agrees_execute agrees (keyed call (isPrefix.subset call_mem))

structure KeyedCount where
  key : List UInt8
  count : Nat
  deriving DecidableEq, Repr

instance : HashSlot KeyedCount where
  key := KeyedCount.key
  zero := ⟨[], 0⟩
  key_zero := rfl
  size := 16

/-- Two levels, of two slots and of one. -/
def twoLevels : MultiLevelHash := ⟨2, 2, 1, 48, [⟨0, 2⟩, ⟨2, 1⟩], true⟩

/-- Two keys that meet on level zero keep their own latest values. -/
theorem everyState_mapsLatest_twoLevels :
    EveryState twoLevels.execute (MapsLatest twoLevels) ⟨fun _ => (⟨[], 0⟩ : KeyedCount), []⟩
      [.insert ⟨[2], 10⟩, .insert ⟨[4], 11⟩, .find [4], .insert ⟨[2], 12⟩, .reset] := by
  have success : (new 1 48 2 2).init KeyedCount = (0, twoLevels) := rfl
  refine everyState_mapsLatest success (by decide) (fun _ _ => rfl) ?_
  simp [HashCall.Keyed, HashSlot.key]

end MultiLevelHash
end McBrpc
