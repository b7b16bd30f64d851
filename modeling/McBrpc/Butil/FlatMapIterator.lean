import McBrpc.Butil.FlatMap

/-!
# Saved positions of flat maps

A position saved in a map and restored in a later state of it leaves the same elements to visit,
among those that stayed, unless the map was resized or the element of the position was the second
or a later one of its chain and did not stay.  Whatever is inserted and erased in between, what
stayed is visited, unless the erased element of the position came back.
-/

namespace McBrpc.FlatMap

open List

variable {K V : Type*} [DecidableEq K] {m r : FlatMap K V} {key : K} {value : V}

/-- From one state of a map to a later one some elements stay, in the order of their chain as long
as the map is not resized. -/
structure Keeps (kept : List K) (before after : FlatMap K V) : Prop where
  hashfn_eq : after.hashfn = before.hashfn
  nbucket_le : before.nbucket ≤ after.nbucket
  mem_iff : ∀ element, element.1 ∈ kept → (element ∈ after.elements ↔ element ∈ before.elements)
  chain_filter : after.nbucket = before.nbucket → ∀ entry,
    (after.chain entry).filter (fun element => element.1 ∈ kept) =
      (before.chain entry).filter (fun element => element.1 ∈ kept)

namespace Keeps

variable {kept : List K} {before middle after : FlatMap K V}

theorem refl (kept : List K) (m : FlatMap K V) : Keeps kept m m :=
  ⟨rfl, le_rfl, fun _ _ => Iff.rfl, fun _ _ => rfl⟩

theorem trans (first : Keeps kept before middle) (second : Keeps kept middle after) :
    Keeps kept before after := by
  refine ⟨second.hashfn_eq.trans first.hashfn_eq, first.nbucket_le.trans second.nbucket_le, ?_, ?_⟩
  · intro item element_kept
    exact (second.mem_iff item element_kept).trans (first.mem_iff item element_kept)
  · intro same entry
    have first_le := first.nbucket_le
    have second_le := second.nbucket_le
    have same_middle : middle.nbucket = before.nbucket := by omega
    have same_after : after.nbucket = middle.nbucket := by omega
    exact (second.chain_filter same_after entry).trans (first.chain_filter same_middle entry)

theorem mem_keys (keeps : Keeps kept before after) (in_kept : key ∈ kept)
    (present : key ∈ before.keys) : key ∈ after.keys := by
  obtain ⟨item, mem, rfl⟩ := mem_map.mp present
  exact mem_map_of_mem ((keeps.mem_iff item in_kept).mpr mem)

theorem index_eq (keeps : Keeps kept before after)
    (same : after.nbucket = before.nbucket) (key : K) : after.index key = before.index key :=
  index_eq_of keeps.hashfn_eq same key

end Keeps

theorem insert_keeps (kept : List K) (lawful : m.Lawful) (absent : key ∉ m.keys)
    (present : ∀ old ∈ kept, old ∈ m.keys) : Keeps kept m (m.insert key value) := by
  have ins : Inserted m key value (m.insert key value) := insert_inserted lawful absent
  have unkept : key ∉ kept := fun in_kept => absent (present key in_kept)
  refine ⟨ins.hashfn_eq, ins.nbucket_le, ?_, ?_⟩
  · intro item in_kept
    rw [ins.mem_iff]
    constructor
    · rintro (old | rfl)
      · exact old
      · exact absurd in_kept unkept
    · exact .inl
  · intro same entry
    rw [ins.chain_eq same]
    split
    · simp [unkept]
    · rfl

omit [DecidableEq K] in
theorem filter_eraseP {item : Type*} (erased kept : item → Bool) (elements : List item)
    (apart : ∀ one, erased one → kept one = false) :
    (elements.eraseP erased).filter kept = elements.filter kept := by
  induction elements with
  | nil => rfl
  | cons first elements ih =>
    cases hit : erased first with
    | true => simp [hit, apart first hit]
    | false => simp [hit, filter_cons, ih]

theorem chain_erase (lawful : m.Lawful) (entry : Nat) : (m.erase key).chain entry =
      if entry = m.index key then (m.chain entry).eraseP fun item => item.1 = key
      else m.chain entry := by
  unfold erase
  split
  case isTrue =>
    refine (m.chain_setChain (lawful.index_lt key) _ entry).trans ?_
    split
    case isTrue same => rw [same]
    case isFalse => rfl
  case isFalse missing =>
    split
    case isTrue same =>
      subst same
      refine (eraseP_of_forall_not ?_).symm
      intro item mem
      simp only [seek, Option.isSome_map, find?_isSome, not_exists, not_and] at missing
      exact missing item mem
    case isFalse => rfl

@[simp]
theorem nbucket_erase (m : FlatMap K V) (key : K) : (m.erase key).nbucket = m.nbucket := by
  unfold erase
  split
  · exact nbucket_setChain ..
  · rfl

@[simp]
theorem hashfn_erase (m : FlatMap K V) (key : K) : (m.erase key).hashfn = m.hashfn := by
  unfold erase
  split <;> rfl

theorem index_erase (m : FlatMap K V) (key other : K) : (m.erase key).index other = m.index other :=
  index_eq_of (hashfn_erase m key) (nbucket_erase m key) other

theorem chain_erase_subset (lawful : m.Lawful) (entry : Nat) :
    ((m.erase key).chain entry).Sublist (m.chain entry) := by
  rw [chain_erase lawful]
  split
  · exact eraseP_sublist
  · exact List.Sublist.refl _

theorem Lawful.erase (lawful : m.Lawful) (key : K) : (m.erase key).Lawful := by
  refine ⟨by simpa using lawful.nbucket_pos, ?_, ?_⟩
  · intro entry item mem
    rw [index_erase]
    exact lawful.index_eq entry item ((chain_erase_subset lawful entry).subset mem)
  · intro entry
    exact (lawful.nodup entry).sublist ((chain_erase_subset lawful entry).map Prod.fst)

theorem erase_keeps (kept : List K) (lawful : m.Lawful) (unkept : key ∉ kept) :
    Keeps kept m (m.erase key) := by
  have filtered : ∀ entry,
      ((m.erase key).chain entry).filter (fun item => item.1 ∈ kept) =
        (m.chain entry).filter (fun item => item.1 ∈ kept) := by
    intro entry
    rw [chain_erase lawful]
    split
    · refine filter_eraseP _ _ _ ?_
      intro item is_key
      obtain rfl : item.1 = key := by simpa using is_key
      simpa using unkept
    · rfl
  refine ⟨hashfn_erase m key, (nbucket_erase m key).ge, ?_, fun _ => filtered⟩
  intro item in_kept
  have same := congrArg (item ∈ ·) (filtered (m.index item.1))
  simp only [mem_filter, in_kept, decide_true, and_true, eq_iff_iff] at same
  rw [(lawful.erase key).mem_elements_iff, lawful.mem_elements_iff, index_erase, same]

variable {it : Nat} {hint : PositionHint K}

omit [DecidableEq K] in
theorem locate_spec (buckets : List (List (K × V))) (inside : it < buckets.flatten.length) :
    (locate buckets it).1 < buckets.length ∧
      (locate buckets it).2 < (buckets.getD (locate buckets it).1 []).length ∧
      buckets.flatten.drop it = (buckets.getD (locate buckets it).1 []).drop
        (locate buckets it).2 ++
        (buckets.drop ((locate buckets it).1 + 1)).flatten := by
  induction buckets generalizing it with
  | nil => simp at inside
  | cons chain buckets ih =>
    simp only [flatten_cons, length_append] at inside
    unfold locate
    split
    case isTrue here =>
      refine ⟨by simp, by simpa using here, ?_⟩
      simp [drop_append_of_le_length here.le]
    case isFalse after =>
      obtain ⟨entry_lt, node_lt, drop_eq⟩ := ih (show it - chain.length < _ by omega)
      refine ⟨by simpa using entry_lt, by simpa using node_lt, ?_⟩
      rw [flatten_cons, drop_append, drop_eq_nil_of_le (by omega), drop_eq]
      simp

omit [DecidableEq K] in
theorem drop_iteratorAt (m : FlatMap K V) {entry : Nat} (inside : entry < m.nbucket)
    {node : Nat} (within : node ≤ (m.chain entry).length) :
    m.elements.drop (m.iteratorAt entry + node) =
      (m.chain entry).drop node ++ (m.buckets.drop (entry + 1)).flatten := by
  have split_at : m.elements =
      (m.buckets.take entry).flatten ++ (m.buckets.drop entry).flatten := by
    rw [← flatten_append, take_append_drop]
    rfl
  rw [split_at, iteratorAt, drop_length_add_append, m.drop_buckets inside, flatten_cons,
    drop_append_of_le_length within]

/-- The part of the saved entry's chain that is visited after a restart. -/
def resumed (hint : PositionHint K) (chain : List (K × V)) : List (K × V) :=
  if hint.atEntry then chain
  else
    match chain.findIdx? fun element => some element.1 = hint.key with
    | some node => chain.drop node
    | none => chain

theorem drop_restoreIterator (m : FlatMap K V) (same : hint.nbucket = m.nbucket)
    (inside : hint.offset < m.nbucket) :
    m.elements.drop (m.restoreIterator hint) =
      resumed hint (m.chain hint.offset) ++ (m.buckets.drop (hint.offset + 1)).flatten := by
  have at_start := m.drop_iteratorAt inside (Nat.zero_le _)
  unfold restoreIterator resumed
  rw [if_neg (not_not.mpr same), if_neg (not_le.mpr inside)]
  split
  case isTrue => exact at_start
  case isFalse =>
    split
    case isTrue empty =>
      rw [empty] at at_start ⊢
      have next : m.iteratorAt (hint.offset + 1) = m.iteratorAt hint.offset := by
        unfold iteratorAt
        have here : m.buckets[hint.offset]? = some [] := by
          rw [getElem?_eq_getElem inside]
          rw [chain, getD_eq_getElem _ _ inside] at empty
          rw [empty]
        rw [take_add_one, here]
        simp
      rw [next]
      exact at_start
    case isFalse =>
      cases found : (m.chain hint.offset).findIdx? fun item => some item.1 = hint.key with
      | some node =>
        have within := (findIdx?_eq_some_iff_findIdx_eq.mp found).1
        exact m.drop_iteratorAt inside within.le
      | none => exact at_start

theorem drop_eq_dropWhile {chain : List (K × V)} (once : (chain.map Prod.fst).Nodup) {node : Nat}
    (inside : node < chain.length) :
    chain.drop node = chain.dropWhile fun item => item.1 ≠ (chain[node]).1 := by
  induction chain generalizing node with
  | nil => simp at inside
  | cons first chain ih =>
    cases node with
    | zero => simp
    | succ node =>
      obtain ⟨fresh, once⟩ := nodup_cons.mp once
      have inside : node < chain.length := by simpa using inside
      have passed : first.1 ≠ (chain[node]).1 :=
        fun same => fresh (same ▸ mem_map_of_mem (getElem_mem inside))
      rw [getElem_cons_succ, dropWhile_cons_of_pos (by simpa using passed)]
      exact ih once inside

theorem resumed_eq_dropWhile {chain : List (K × V)} (inner : hint.atEntry = false)
    (saved : hint.key = some key) (present : ∃ item ∈ chain, item.1 = key) :
    resumed hint chain = chain.dropWhile fun item => item.1 ≠ key := by
  have same_test : (fun item : K × V => decide (some item.1 = hint.key)) =
      fun item => decide (item.1 = key) := by
    funext item
    simp [saved]
  have finds : chain.findIdx? (fun item => decide (item.1 = key)) =
      some (chain.findIdx fun item => decide (item.1 = key)) := by
    refine findIdx?_eq_some_iff_findIdx_eq.mpr ⟨?_, rfl⟩
    obtain ⟨item, mem, is_key⟩ := present
    exact findIdx_lt_length_of_exists ⟨item, mem, by simpa using is_key⟩
  unfold resumed
  rw [same_test, finds, dropWhile_eq_drop_findIdx_not]
  simp [inner]

theorem mem_dropWhile_iff (first : K) (names : List K) :
    key ∈ names.dropWhile (· ≠ first) ↔ first = key ∧ key ∈ names ∨ [first, key] <+ names := by
  induction names with
  | nil => simp
  | cons name names ih =>
    by_cases same : name = first
    · subst same
      rw [dropWhile_cons_of_neg (by simp), cons_sublist_cons, singleton_sublist, mem_cons]
      grind
    · rw [dropWhile_cons_of_pos (by simpa using same), ih]
      grind

theorem mem_map_resumed_iff (chain : List (K × V)) : key ∈ (resumed hint chain).map Prod.fst ↔
    key ∈ chain.map Prod.fst ∧ (hint.atEntry = false → ∀ saved, hint.key = some saved →
      saved ∈ chain.map Prod.fst → saved = key ∨ [saved, key] <+ chain.map Prod.fst) := by
  cases inner : hint.atEntry with
  | true => simp [resumed, inner]
  | false =>
    by_cases present : ∃ saved, hint.key = some saved ∧ saved ∈ chain.map Prod.fst
    · obtain ⟨saved, named, inside⟩ := present
      have dropped := resumed_eq_dropWhile inner named (mem_map.mp inside)
      have keys_eq : (resumed hint chain).map Prod.fst =
          (chain.map Prod.fst).dropWhile (· ≠ saved) := by
        rw [dropped, dropWhile_map]
        rfl
      have pair_mem : [saved, key] <+ chain.map Prod.fst → key ∈ chain.map Prod.fst :=
        fun pair => pair.subset (by simp)
      rw [keys_eq, mem_dropWhile_iff, named]
      grind
    · have missing : chain.findIdx? (fun item => some item.1 = hint.key) = none := by
        refine findIdx?_eq_none_iff.mpr fun item mem => ?_
        refine decide_eq_false fun same => present ⟨item.1, same.symm, mem_map_of_mem mem⟩
      simp only [resumed, inner, missing]
      grind

/-- The hint of an iterator that is not at the end. -/
structure Saved (m : FlatMap K V) (it : Nat) (hint : PositionHint K) : Prop where
  nbucket_eq : hint.nbucket = m.nbucket
  inside : hint.offset < m.nbucket
  drop_eq : m.elements.drop it =
    resumed hint (m.chain hint.offset) ++ (m.buckets.drop (hint.offset + 1)).flatten
  key_mem : ∃ element ∈ m.chain hint.offset, hint.key = some element.1

theorem Lawful.saved (lawful : m.Lawful) (inside : it < m.elements.length) :
    Saved m it (m.saveIterator it) := by
  obtain ⟨entry_lt, node_lt, drop_eq⟩ := locate_spec m.buckets inside
  have here : m.elements[it]? = (m.chain (locate m.buckets it).1)[(locate m.buckets it).2]? := by
    have heads := congrArg List.head? drop_eq
    rw [head?_drop, head?_append_of_ne_nil _ (by simpa using node_lt), head?_drop] at heads
    exact heads
  set entry := (locate m.buckets it).1
  set node := (locate m.buckets it).2
  have node_lt : node < (m.chain entry).length := node_lt
  have saved_key : (m.saveIterator it).key = some ((m.chain entry)[node]).1 := by
    simp [saveIterator, here, getElem?_eq_getElem node_lt]
  refine ⟨rfl, entry_lt, ?_, ⟨(m.chain entry)[node], getElem_mem node_lt, saved_key⟩⟩
  refine Eq.trans drop_eq (congrArg (· ++ _) ?_)
  change (m.chain entry).drop node = resumed (m.saveIterator it) (m.chain entry)
  cases first : (m.saveIterator it).atEntry with
  | true =>
    have node_zero : node = 0 := by
      simp only [saveIterator, decide_eq_true_eq] at first
      exact first.2
    simp [resumed, first, node_zero]
  | false =>
    rw [resumed_eq_dropWhile first saved_key ⟨_, getElem_mem node_lt, rfl⟩]
    exact drop_eq_dropWhile (lawful.nodup entry) node_lt

theorem Saved.drop_restoreIterator_self (saved : Saved m it hint)
    : m.elements.drop (m.restoreIterator hint) = m.elements.drop it := by
  rw [drop_restoreIterator m saved.nbucket_eq saved.inside, saved.drop_eq]

theorem mem_resumed_iff_of_nodup {chain : List (K × V)} (once : (chain.map Prod.fst).Nodup)
    {item : K × V} : item ∈ resumed hint chain ↔
      item ∈ chain ∧ item.1 ∈ (resumed hint chain).map Prod.fst := by
  have part : resumed hint chain <+ chain := by
    unfold resumed
    split
    · exact Sublist.refl _
    · split
      · exact drop_sublist _ _
      · exact Sublist.refl _
  constructor
  · intro mem
    exact ⟨part.subset mem, mem_map_of_mem mem⟩
  · rintro ⟨mem, named⟩
    obtain ⟨same, same_mem, key_eq⟩ := mem_map.mp named
    exact inj_on_of_nodup_map once (part.subset same_mem) mem key_eq ▸ same_mem

theorem sublist_of_filter_eq {kept before after names : List K}
    (filtered : after.filter (· ∈ kept) = before.filter (· ∈ kept))
    (in_kept : ∀ name ∈ names, name ∈ kept) (part : names <+ after) : names <+ before := by
  have kept_part := part.filter (· ∈ kept)
  rw [filter_eq_self.mpr (by simpa using in_kept), filtered] at kept_part
  exact kept_part.trans filter_sublist

/-- Whether a kept element is in the part of the chain that is visited after a restart does not
depend on the state of the map. -/
theorem mem_resumed_iff {kept : List K} {before after : List (K × V)}
    (filtered : after.filter (fun element => element.1 ∈ kept) =
      before.filter (fun element => element.1 ∈ kept))
    (once_before : (before.map Prod.fst).Nodup) (once_after : (after.map Prod.fst).Nodup)
    (resumes : hint.atEntry = true ∨ after = [] ∨ ∀ key ∈ hint.key, key ∈ kept) {item : K × V}
    (in_kept : item.1 ∈ kept) : item ∈ resumed hint after ↔ item ∈ resumed hint before := by
  have mem_chain : item ∈ after ↔ item ∈ before := by
    have same := congrArg (item ∈ ·) filtered
    simpa [in_kept] using same
  have keys_eq : (after.map Prod.fst).filter (· ∈ kept) =
      (before.map Prod.fst).filter (· ∈ kept) := by
    rw [filter_map, filter_map]
    exact congrArg (map Prod.fst) filtered
  have order : ∀ names : List K, (∀ name ∈ names, name ∈ kept) →
      (names <+ after.map Prod.fst ↔ names <+ before.map Prod.fst) :=
    fun _ inside => ⟨sublist_of_filter_eq keys_eq inside, sublist_of_filter_eq keys_eq.symm inside⟩
  rw [mem_resumed_iff_of_nodup once_after, mem_resumed_iff_of_nodup once_before, mem_chain,
    mem_map_resumed_iff, mem_map_resumed_iff]
  refine and_congr_right fun mem => and_congr ?_ ?_
  · exact iff_of_true (mem_map_of_mem (mem_chain.mpr mem)) (mem_map_of_mem mem)
  · refine forall_congr' fun inner => forall₂_congr fun saved named => ?_
    obtain first | rfl | key_kept := resumes
    · simp [inner] at first
    · simp [mem] at mem_chain
    · have saved_kept := key_kept saved named
      rw [← singleton_sublist, order [saved] (by simp [saved_kept]), singleton_sublist,
        order [saved, item.1] (by simp [saved_kept, in_kept])]

theorem Saved.mem_drop_restoreIterator {kept : List K} (saved : Saved m it hint) (lawful : m.Lawful)
    (later_lawful : r.Lawful) (keeps : Keeps kept m r) (same : r.nbucket = m.nbucket)
    (resumes : hint.atEntry = true ∨ r.chain hint.offset = [] ∨ ∀ key ∈ hint.key, key ∈ kept)
    {item : K × V} (in_kept : item.1 ∈ kept) :
    item ∈ r.elements.drop (r.restoreIterator hint) ↔ item ∈ m.elements.drop it := by
  have inside : hint.offset < r.nbucket := same ▸ saved.inside
  rw [drop_restoreIterator r (saved.nbucket_eq.trans same.symm) inside, saved.drop_eq,
    mem_append, mem_append, later_lawful.mem_flatten_drop_iff,
    lawful.mem_flatten_drop_iff, keeps.index_eq same, keeps.mem_iff item in_kept,
    mem_resumed_iff (keeps.chain_filter same hint.offset) (lawful.nodup _) (later_lawful.nodup _)
      resumes in_kept]

variable {other : K}

def chainKeys (m : FlatMap K V) (entry : Nat) : List K := (m.chain entry).map Prod.fst

omit [DecidableEq K] in
theorem Lawful.mem_keys_iff (lawful : m.Lawful) :
    key ∈ m.keys ↔ key ∈ m.chainKeys (m.index key) := by
  simp only [keys, chainKeys, mem_map]
  refine exists_congr fun item => and_congr_left ?_
  rintro rfl
  exact lawful.mem_elements_iff item

theorem chainKeys_erase (lawful : m.Lawful) (entry : Nat) : (m.erase key).chainKeys entry =
    if entry = m.index key then (m.chainKeys entry).erase key else m.chainKeys entry := by
  unfold chainKeys
  rw [chain_erase lawful]
  split
  · rw [erase_eq_eraseP', eraseP_map]
    rfl
  · rfl

theorem mem_keys_erase (lawful : m.Lawful) :
    key ∈ (m.erase other).keys ↔ key ≠ other ∧ key ∈ m.keys := by
  rw [(lawful.erase other).mem_keys_iff, lawful.mem_keys_iff, index_erase, chainKeys_erase lawful]
  split
  · exact (lawful.nodup _).mem_erase_iff
  case isFalse apart =>
    have ne : key ≠ other := fun same => apart (congrArg m.index same)
    simp [ne]

/-- What an insertion does to the keys, whether its key is new or not. -/
structure Extended (m : FlatMap K V) (key : K) (r : FlatMap K V) : Prop where
  lawful : r.Lawful
  hashfn_eq : r.hashfn = m.hashfn
  nbucket_le : m.nbucket ≤ r.nbucket
  mem_keys_iff : ∀ other, other ∈ r.keys ↔ other ∈ m.keys ∨ other = key
  chainKeys_sublist : r.nbucket = m.nbucket → ∀ entry, m.chainKeys entry <+ r.chainKeys entry

omit [DecidableEq K] in
theorem Inserted.extended (inserted : Inserted m key value r) : Extended m key r := by
  refine ⟨inserted.lawful, inserted.hashfn_eq, inserted.nbucket_le, ?_, ?_⟩
  · intro other
    simp only [keys, mem_map, inserted.mem_iff, or_and_right, exists_or, exists_eq_left]
    exact or_congr_right eq_comm
  · intro same entry
    refine Sublist.map _ ?_
    rw [inserted.chain_eq same]
    split
    · exact sublist_append_left _ _
    · exact Sublist.refl _

theorem insert_extended (lawful : m.Lawful) : Extended m key (m.insert key value) := by
  by_cases present : key ∈ m.keys
  · have found := (seek_isSome_iff lawful).mpr present
    have occupied : m.chain (m.index key) ≠ [] := by
      intro empty
      simp [seek, empty] at found
    have insert_eq : m.insert key value = m.setChain (m.index key) ((m.chain (m.index key)).map
        fun item => if item.1 = key then (key, value) else item) := by
      unfold insert put assign
      rw [if_neg occupied, if_pos found]
    have nbucket_eq : (m.insert key value).nbucket = m.nbucket := by
      rw [insert_eq, nbucket_setChain]
    have hashfn_eq : (m.insert key value).hashfn = m.hashfn := by
      rw [insert_eq]
      rfl
    have index_same := index_eq_of hashfn_eq nbucket_eq
    have chainKeys_eq : ∀ entry, (m.insert key value).chainKeys entry = m.chainKeys entry := by
      intro entry
      unfold chainKeys
      rw [insert_eq, chain_setChain m (lawful.index_lt key)]
      split
      case isTrue same =>
        rw [same, map_map]
        refine map_congr_left fun item _ => ?_
        by_cases here : item.1 = key <;> simp [here]
      case isFalse => rfl
    have still_lawful : (m.insert key value).Lawful := by
      refine ⟨nbucket_eq ▸ lawful.nbucket_pos, ?_, ?_⟩
      · intro entry item mem
        have mem : item.1 ∈ m.chainKeys entry := chainKeys_eq entry ▸ mem_map_of_mem mem
        obtain ⟨old, mem, same⟩ := mem_map.mp mem
        rw [index_same, ← same]
        exact lawful.index_eq entry old mem
      · intro entry
        change ((m.insert key value).chainKeys entry).Nodup
        rw [chainKeys_eq]
        exact lawful.nodup entry
    refine ⟨still_lawful, hashfn_eq, nbucket_eq.ge, ?_, ?_⟩
    · intro other
      rw [still_lawful.mem_keys_iff, index_same, chainKeys_eq, ← lawful.mem_keys_iff]
      exact (or_iff_left_of_imp fun same => same ▸ present).symm
    · intro _ entry
      exact (chainKeys_eq entry).symm ▸ Sublist.refl _
  · exact (insert_inserted lawful present).extended

/-- A change of a map between the save and the restore of a position. -/
inductive Change (K V : Type*)
  | insert (key : K) (value : V)
  | erase (key : K)
  deriving DecidableEq

def change (m : FlatMap K V) : Change K V → FlatMap K V
  | .insert key value => m.insert key value
  | .erase key => m.erase key

/-- The change does not bring the erased item of a saved position back, unless that was the
first one of its chain. -/
def Steady (hint : PositionHint K) (m : FlatMap K V) : Change K V → Prop
  | .insert key _ => hint.key = some key → hint.atEntry = true ∨ key ∈ m.keys
  | .erase _ => True

def SteadyRun (hint : PositionHint K) : FlatMap K V → List (Change K V) → Prop
  | _, [] => True
  | m, next :: changes => m.Steady hint next ∧ SteadyRun hint (m.change next) changes

/-- An iteration from the saved position visits the key. -/
structure Ahead (hint : PositionHint K) (key : K) (m : FlatMap K V) : Prop where
  lawful : m.Lawful
  mem_keys : key ∈ m.keys
  offset_lt : hint.offset < hint.nbucket
  nbucket_le : hint.nbucket ≤ m.nbucket
  place : m.nbucket = hint.nbucket → hint.offset < m.index key ∨ m.index key = hint.offset ∧
    (hint.atEntry = false → ∀ saved, hint.key = some saved → saved ∈ m.keys →
      saved = key ∨ [saved, key] <+ m.chainKeys hint.offset)

namespace Ahead

omit [DecidableEq K] in
theorem of_step (ahead : Ahead hint key m) (lawful : r.Lawful) (hashfn_eq : r.hashfn = m.hashfn)
    (nbucket_le : m.nbucket ≤ r.nbucket) (mem : key ∈ r.keys)
    (order : r.nbucket = m.nbucket → hint.atEntry = false → ∀ saved, hint.key = some saved →
      saved ∈ r.keys → saved ∈ m.keys ∧ ∀ entry,
        [saved, key] <+ m.chainKeys entry → [saved, key] <+ r.chainKeys entry) :
    Ahead hint key r := by
  refine ⟨lawful, mem, ahead.offset_lt, ahead.nbucket_le.trans nbucket_le, ?_⟩
  intro same
  have at_least := ahead.nbucket_le
  have same_before : m.nbucket = hint.nbucket := by omega
  have unresized : r.nbucket = m.nbucket := by omega
  rw [index_eq_of hashfn_eq unresized]
  refine (ahead.place same_before).imp_right fun ⟨here, behind⟩ => ⟨here, ?_⟩
  intro inner saved named inside
  obtain ⟨old, keeps⟩ := order unresized inner saved named inside
  exact (behind inner saved named old).imp_right (keeps _)

theorem change (ahead : Ahead hint key m) {next : Change K V} (steady : m.Steady hint next)
    (stays : next ≠ .erase key) : Ahead hint key (m.change next) := by
  cases next with
  | insert added value =>
    have extended : Extended m added (m.insert added value) := insert_extended ahead.lawful
    refine ahead.of_step extended.lawful extended.hashfn_eq extended.nbucket_le
      ((extended.mem_keys_iff key).mpr (.inl ahead.mem_keys)) ?_
    intro same inner saved named inside
    refine ⟨?_, fun entry before => before.trans (extended.chainKeys_sublist same entry)⟩
    obtain old | rfl := (extended.mem_keys_iff saved).mp inside
    · exact old
    · exact (steady named).resolve_left (by simp [inner])
  | erase gone =>
    have ne : key ≠ gone := fun same => stays (same ▸ rfl)
    refine ahead.of_step (ahead.lawful.erase gone) (hashfn_erase m gone)
      (nbucket_erase m gone).ge ((mem_keys_erase ahead.lawful).mpr ⟨ne, ahead.mem_keys⟩) ?_
    intro _ _ saved _ inside
    obtain ⟨saved_ne, old⟩ := (mem_keys_erase ahead.lawful).mp inside
    refine ⟨old, fun entry before => ?_⟩
    refine (chainKeys_erase ahead.lawful entry).symm ▸ ?_
    split
    · have kept := before.erase gone
      rwa [erase_of_not_mem (by simp [saved_ne.symm, ne.symm])] at kept
    · exact before

theorem run (changes : List (Change K V)) (ahead : Ahead hint key m)
    (steady : SteadyRun hint m changes) (stays : .erase key ∉ changes) :
    Ahead hint key (changes.foldl FlatMap.change m) := by
  induction changes generalizing m with
  | nil => exact ahead
  | cons next changes ih =>
    obtain ⟨first, rest⟩ := steady
    obtain ⟨ne, stays⟩ := not_or.mp (mem_cons.not.mp stays)
    exact ih (ahead.change first (Ne.symm ne)) rest stays

end Ahead

def visited (m : FlatMap K V) (it : Nat) : List K := (m.elements.drop it).map Prod.fst

theorem Saved.ahead (saved : Saved m it hint) (lawful : m.Lawful) (mem : key ∈ m.visited it) :
    Ahead hint key m := by
  have inside : key ∈ m.keys := ((drop_sublist it m.elements).map Prod.fst).subset mem
  refine ⟨lawful, inside, saved.nbucket_eq ▸ saved.inside, saved.nbucket_eq.le, fun _ => ?_⟩
  rw [visited, saved.drop_eq, map_append, mem_append] at mem
  obtain here | later := mem
  · obtain ⟨here, behind⟩ := (mem_map_resumed_iff _).mp here
    obtain ⟨item, item_mem, rfl⟩ := mem_map.mp here
    refine .inr ⟨lawful.index_eq _ item item_mem, fun inner name named _ => ?_⟩
    obtain ⟨at_key, at_key_mem, saved_key⟩ := saved.key_mem
    obtain rfl : at_key.1 = name := by simpa [saved_key] using named
    exact behind inner _ named (mem_map_of_mem at_key_mem)
  · obtain ⟨item, item_mem, rfl⟩ := mem_map.mp later
    exact .inl ((lawful.mem_flatten_drop_iff _ item).mp item_mem).1

theorem Ahead.mem_visited (ahead : Ahead hint key m) :
    key ∈ m.visited (m.restoreIterator hint) := by
  unfold visited
  by_cases same : m.nbucket = hint.nbucket
  · rw [drop_restoreIterator m same.symm (same ▸ ahead.offset_lt), map_append, mem_append]
    obtain later | ⟨here, behind⟩ := ahead.place same
    · obtain ⟨item, mem, rfl⟩ := mem_map.mp ahead.mem_keys
      exact .inr (mem_map_of_mem ((ahead.lawful.mem_flatten_drop_iff _ item).mpr ⟨later, mem⟩))
    · have in_chain := ahead.lawful.mem_keys_iff.mp ahead.mem_keys
      rw [here] at in_chain
      refine .inl ((mem_map_resumed_iff _).mpr ⟨in_chain, fun inner saved named mem => ?_⟩)
      obtain ⟨item, item_mem, rfl⟩ := mem_map.mp mem
      have present : item ∈ m.elements := (m.mem_elements item).mpr ⟨_, item_mem⟩
      exact behind inner _ named (fst_mem_keys present)
  · rw [restoreIterator, if_pos (Ne.symm same)]
    exact ahead.mem_keys

theorem Lawful.run (changes : List (Change K V)) (lawful : m.Lawful) :
    (changes.foldl change m).Lawful := by
  induction changes generalizing m with
  | nil => exact lawful
  | cons next changes ih =>
    cases next with
    | insert key value => exact ih (insert_extended lawful).lawful
    | erase key => exact ih (lawful.erase key)

/-- An iteration from a restored position visits every key that was still to visit and was never
erased, if the erased key of the position did not come back. -/
theorem mem_visited_of_steadyRun (lawful : m.Lawful) {changes : List (Change K V)}
    (steady : SteadyRun (m.saveIterator it) m changes) (mem : key ∈ m.visited it)
    (stays : .erase key ∉ changes) :
    key ∈ (changes.foldl change m).visited
      ((changes.foldl change m).restoreIterator (m.saveIterator it)) := by
  have inside : it < m.elements.length := by
    by_contra outside
    simp [visited, drop_eq_nil_of_le (not_lt.mp outside)] at mem
  exact (((lawful.saved inside).ahead lawful mem).run changes steady stays).mem_visited

def oneChain : FlatMap ℕ ℕ :=
  [.insert 1 0, .insert 2 0, .insert 3 0].foldl change (init (fun _ => 0) 8 80)

theorem mem_visited_oneChain : 3 ∈ ([.erase 1, .insert 4 0].foldl change oneChain).visited
    (([.erase 1, .insert 4 0].foldl change oneChain).restoreIterator (oneChain.saveIterator 1)) :=
  mem_visited_of_steadyRun ((lawful_init _ _ _).run _) ⟨trivial,
    fun same => absurd same (by decide), trivial⟩ (by decide) (by decide)

/-- The second key is erased and inserted again, behind the third one. -/
theorem not_mem_visited_reinserted : 3 ∈ oneChain.visited 1 ∧
    Change.erase 3 ∉ [.erase 2, Change.insert 2 0] ∧
    3 ∉ ([.erase 2, .insert 2 0].foldl change oneChain).visited
      (([.erase 2, .insert 2 0].foldl change oneChain).restoreIterator
        (oneChain.saveIterator 1)) := by
  decide

def changeSet (names : Set K) : Change K V → Set K
  | .insert key _ => names ∪ {key}
  | .erase key => {name | name ≠ key ∧ name ∈ names}

theorem Lawful.keys_run (changes : List (Change K V)) (lawful : m.Lawful) :
    {key | key ∈ (changes.foldl change m).keys} =
      changes.foldl changeSet {key | key ∈ m.keys} := by
  induction changes generalizing m with
  | nil => rfl
  | cons next changes ih =>
    refine (ih (lawful.run [next])).trans (congrArg (changes.foldl changeSet) ?_)
    ext key
    cases next with
    | insert => exact (insert_extended lawful).mem_keys_iff key
    | erase => exact mem_keys_erase lawful

/-- Whatever the hash function and through any number of resizes, an iteration visits every key of
the set that the changes make, and visits it once. -/
theorem visited_run (hashfn : K → Nat) (nbucket loadFactor : Nat) (changes : List (Change K V)) :
    let r := changes.foldl change (init hashfn nbucket loadFactor)
    (r.visited 0).Nodup ∧ {key | key ∈ r.visited 0} = changes.foldl changeSet ∅ := by
  have lawful := lawful_init (V := V) hashfn nbucket loadFactor
  refine ⟨(lawful.run changes).nodup_keys, (lawful.keys_run changes).trans ?_⟩
  exact congrArg (changes.foldl changeSet) (Set.ext fun _ => iff_of_false (by simp [keys]) id)

end McBrpc.FlatMap
