import McBrpc.Bvar.VarMaps
import McBrpc.Butil.FlatMapIterator
import McBrpc.Library.Execution

/-!
# Listing the exposed variables

A variable that stays exposed while `Variable::list_exposed` runs is listed exactly once as long
as no yield is disturbed: the restored iterator is not the begin of its sub-map while names of
earlier sub-maps are listed, and it finds its variable again in the place it had.
-/

namespace McBrpc

open FlatMap Function List ListArguments VarMap Execution

/-- Every sub-map is lawful and holds names of its own only. -/
structure VarMaps.Sound (maps : VarMaps) : Prop where
  lawful : ∀ subMap, (maps subMap).Lawful
  home : ∀ subMap, ∀ name ∈ (maps subMap).keys, subMapIndex name = subMap

theorem sound_initVarMaps : VarMaps.Sound initVarMaps := by
  refine ⟨fun _ => lawful_init _ _ _, ?_⟩
  intro subMap name member
  simp [initVarMaps, new, FlatMap.keys] at member

namespace VarMaps.Sound

variable {maps : VarMaps} (sound : Sound maps)
include sound

variable (call : VarCall)

theorem onMap : (call.onMap (maps (subMapIndex call.name))).Lawful ∧
      ∀ name ∈ (call.onMap (maps (subMapIndex call.name))).keys,
        name = call.name ∨ name ∈ (maps (subMapIndex call.name)).keys := by
  have lawful := sound.lawful (subMapIndex call.name)
  generalize maps (subMapIndex call.name) = m at *
  cases call with
  | expose name entry =>
    simp only [VarCall.onMap, VarCall.name]
    cases found : m.seek name with
    | some old => exact ⟨lawful, fun other => .inr⟩
    | none =>
      have extended : Extended m name (m.insert name entry) := insert_extended lawful
      exact ⟨extended.lawful, fun other mem => ((extended.mem_keys_iff other).mp mem).symm⟩
  | hide name =>
    exact ⟨lawful.erase name, fun other mem => .inr ((mem_keys_erase lawful).mp mem).2⟩

theorem apply : Sound (call.apply maps) := by
  obtain ⟨changed_lawful, changed_keys⟩ := sound.onMap call
  constructor
  · intro subMap
    unfold VarCall.apply
    rw [update_apply]
    split
    · exact changed_lawful
    · exact sound.lawful subMap
  · intro subMap name member
    unfold VarCall.apply at member
    rw [update_apply] at member
    split at member
    case isTrue here =>
      obtain rfl | old := changed_keys name member
      · exact here.symm
      · exact (sound.home _ name old).trans here.symm
    case isFalse => exact sound.home subMap name member

theorem calls (calls : List VarCall) : Sound (calls.foldl VarCall.apply maps) :=
  foldl_invariant Sound calls sound fun _ call _ sound => sound.apply call

theorem apply_keeps (subMap : Nat) {kept : List VarName}
    (present : ∀ name ∈ kept, name ∈ (maps subMap).keys)
    (unhidden : ∀ name ∈ kept, call ≠ .hide name) :
    Keeps kept (maps subMap) (call.apply maps subMap) := by
  have lawful := sound.lawful subMap
  unfold VarCall.apply
  rw [update_apply]
  split
  case isFalse => exact Keeps.refl kept (maps subMap)
  case isTrue here =>
    rw [← here]
    cases call with
    | expose name entry =>
      simp only [VarCall.onMap]
      cases found : (maps subMap).seek name with
      | some old => exact Keeps.refl kept (maps subMap)
      | none => exact insert_keeps kept lawful ((seek_eq_none_iff lawful).mp found) present
    | hide name => exact erase_keeps kept lawful fun in_kept => unhidden name in_kept rfl

theorem calls_keep (calls : List VarCall) (subMap : Nat)
    (kept : List VarName) (present : ∀ name ∈ kept, name ∈ (maps subMap).keys)
    (unhidden : ∀ name ∈ kept, .hide name ∉ calls) :
    Keeps kept (maps subMap) (calls.foldl VarCall.apply maps subMap) := by
  induction calls generalizing maps with
  | nil => exact Keeps.refl kept (maps subMap)
  | cons call calls ih =>
    have first := sound.apply_keeps call subMap present fun name in_kept same =>
      unhidden name in_kept (same ▸ mem_cons_self)
    refine first.trans (ih (sound.apply call) ?_ ?_)
    · intro name in_kept
      exact first.mem_keys in_kept (present name in_kept)
    · intro name in_kept later
      exact unhidden name in_kept (mem_cons_of_mem _ later)

theorem foldl_expose (subMap : Nat) (entry : VarEntry)
    (names : List VarName) (once : names.Nodup) (here : ∀ name ∈ names, subMapIndex name = subMap)
    (absent : ∀ name ∈ names, name ∉ (maps subMap).keys) :
    (names.map fun name => VarCall.expose name entry).foldl VarCall.apply maps =
      Function.update maps subMap
        ((names.map fun name => (name, entry)).foldl
          (fun grown item => grown.insert item.1 item.2) (maps subMap)) := by
  induction names generalizing maps with
  | nil => simp
  | cons name names ih =>
    obtain ⟨different, once⟩ := nodup_cons.mp once
    have fresh := absent name mem_cons_self
    have missing := (seek_eq_none_iff (sound.lawful subMap)).mpr fresh
    have first : (VarCall.expose name entry).apply maps =
        Function.update maps subMap ((maps subMap).insert name entry) := by
      simp only [VarCall.apply, VarCall.name, here name mem_cons_self, VarCall.onMap,
        missing]
    have ins : Inserted (maps subMap) name entry ((maps subMap).insert name entry) :=
      insert_inserted (sound.lawful subMap) fresh
    have sound_first := sound.apply (.expose name entry)
    rw [map_cons, foldl_cons]
    rw [first] at sound_first ⊢
    rw [ih sound_first once (fun later member => here later (mem_cons_of_mem _ member))]
    · simp
    · intro later member
      rw [update_self]
      refine ins.not_mem_keys (absent later (mem_cons_of_mem _ member)) ?_
      rintro rfl
      exact different member

end VarMaps.Sound

section Pass

variable (args : ListArguments) {name : VarName}

theorem count_pushName (names : List VarName) (item : VarName × VarEntry)
    (shown : item.1 = name → args.shows item.2) :
    (args.pushName names item).count name = names.count name + [item.1].count name := by
  unfold pushName
  split
  case isTrue => exact count_append
  case isFalse hidden =>
    have other : item.1 ≠ name := fun same => hidden (shown same)
    simp [other]

/-- How often the name is listed or left to visit. -/
def countWith (name : VarName) (names : List VarName) (rest : List (VarName × VarEntry)) : Nat :=
  names.count name + (rest.map Prod.fst).count name

theorem countWith_cons (names : List VarName) (item : VarName × VarEntry)
    (rest : List (VarName × VarEntry)) (shown : item.1 = name → args.shows item.2) :
    countWith name (args.pushName names item) rest = countWith name names (item :: rest) := by
  unfold countWith
  rw [count_pushName args names item shown, map_cons, count_cons, count_cons,
    count_nil]
  omega

variable {n : Nat} {names listed : List VarName} {rest : List (VarName × VarEntry)}

theorem pass_end (shown : ∀ item ∈ rest, item.1 = name → args.shows item.2)
    (ended : args.pass n names rest = (listed, none)) :
    listed.count name = countWith name names rest := by
  induction rest generalizing n names with
  | nil =>
    simp only [ListArguments.pass, Prod.mk.injEq, and_true] at ended
    simp [countWith, ended]
  | cons item rest ih =>
    unfold ListArguments.pass at ended
    split at ended
    · simp at ended
    · rw [ih (fun other member => shown other (mem_cons_of_mem _ member)) ended]
      exact countWith_cons args names item rest (shown item mem_cons_self)

theorem pass_left {left : Nat} (yielded : args.pass n names rest = (listed, some left)) :
    0 < left ∧ left ≤ rest.length ∧ (n + 1 < 256 → left < rest.length) := by
  induction rest generalizing n names with
  | nil => simp [ListArguments.pass] at yielded
  | cons item rest ih =>
    unfold ListArguments.pass at yielded
    split at yielded
    case isTrue full =>
      obtain ⟨-, rfl⟩ := yielded
      refine ⟨by omega, by simp, by omega⟩
    case isFalse =>
      obtain ⟨pos, bound, -⟩ := ih yielded
      rw [length_cons]
      omega

theorem pass_yield {left : Nat} (shown : ∀ item ∈ rest, item.1 = name → args.shows item.2)
    (yielded : args.pass n names rest = (listed, some left)) :
    countWith name listed (rest.drop (rest.length - left)) = countWith name names rest := by
  induction rest generalizing n names with
  | nil => simp [ListArguments.pass] at yielded
  | cons item rest ih =>
    unfold ListArguments.pass at yielded
    split at yielded
    case isTrue full =>
      obtain ⟨rfl, rfl⟩ := yielded
      simp
    case isFalse =>
      obtain ⟨-, bound, -⟩ := pass_left args yielded
      have counted := ih (fun other member => shown other (mem_cons_of_mem _ member)) yielded
      rw [countWith_cons args names item rest (shown item mem_cons_self)] at counted
      rw [← counted, length_cons, Nat.succ_sub bound, drop_succ_cons]

end Pass

/-- The yield, if the scan is in one, is not disturbed by the calls made during it: it does not
resume at the begin of the sub-map with names of earlier sub-maps already listed, and a variable
inside a chain at which it was saved is not hidden while others of that chain remain. -/
def Undisturbed (scan : Scan) (calls : List VarCall) : Prop :=
  match scan.point with
  | .before _ => True
  | .within subMap hint =>
    let m := calls.foldl VarCall.apply scan.maps subMap
    (m.restoreIterator hint = 0 → ∀ name ∈ scan.names, subMapIndex name = subMap) ∧
    (m.nbucket = hint.nbucket → hint.atEntry = false → m.chain hint.offset ≠ [] →
      ∀ name ∈ hint.key, .hide name ∉ calls)

/-- The variable has been listed once, or is to be met once. -/
structure ListsOnce (name : VarName) (entry : VarEntry) (scan : Scan) : Prop where
  sound : VarMaps.Sound scan.maps
  exposed : (name, entry) ∈ (scan.maps (subMapIndex name)).elements
  counted : match scan.point with
    | .before subMap => subMap ≤ subMapCount ∧
        scan.names.count name = if subMapIndex name < subMap then 1 else 0
    | .within subMap hint => subMap < subMapCount ∧ ∃ it, 0 < it ∧
        it < (scan.maps subMap).elements.length ∧ Saved (scan.maps subMap) it hint ∧
        countWith name scan.names ((scan.maps subMap).elements.drop it) =
          if subMapIndex name ≤ subMap then 1 else 0

section Scan

variable {args : ListArguments} {name : VarName} {entry : VarEntry} {maps : VarMaps}
  {names : List VarName} {subMap : Nat} {calls : List VarCall} {it : Nat}
  {hint : PositionHint VarName} {scan : Scan}

section

variable (sound : VarMaps.Sound maps) (exposed : (name, entry) ∈ (maps (subMapIndex name)).elements)
include sound exposed

theorem VarMaps.Sound.eq_entry {item : VarName × VarEntry}
    (member : item ∈ (maps subMap).elements)
    (same : item.1 = name) : item = (name, entry) := by
  have here : subMapIndex name = subMap :=
    sound.home subMap name (same ▸ mem_map_of_mem member)
  rw [here] at exposed
  exact inj_on_of_nodup_map (sound.lawful subMap).nodup_keys member exposed same

theorem VarMaps.Sound.count_keys (subMap : Nat) :
    (maps subMap).keys.count name = if subMapIndex name = subMap then 1 else 0 := by
  split
  case isTrue here =>
    rw [here] at exposed
    exact count_eq_one_of_mem (sound.lawful subMap).nodup_keys (mem_map_of_mem exposed)
  case isFalse elsewhere =>
    exact count_eq_zero.mpr fun member => elsewhere (sound.home subMap name member)

theorem VarMaps.Sound.count_drop (it : Nat) :
    (((maps subMap).elements.drop it).map Prod.fst).count name =
      if (name, entry) ∈ (maps subMap).elements.drop it then 1 else 0 := by
  have once : (((maps subMap).elements.drop it).map Prod.fst).Nodup :=
    (sound.lawful subMap).nodup_keys.sublist ((drop_sublist _ _).map _)
  split
  case isTrue member =>
    exact count_eq_one_of_mem once
      (mem_map_of_mem (f := Prod.fst) (a := (name, entry)) member)
  case isFalse absent =>
    refine count_eq_zero.mpr ?_
    intro listed
    obtain ⟨item, member, same⟩ := mem_map.mp listed
    exact absent (sound.eq_entry exposed (mem_of_mem_drop member) same ▸ member)

theorem VarMaps.Sound.still_exposed (unhidden : .hide name ∉ calls) :
    (name, entry) ∈ (calls.foldl VarCall.apply maps (subMapIndex name)).elements := by
  have keeps := sound.calls_keep calls (subMapIndex name) [name]
    (by simpa using fst_mem_keys exposed) (by simpa using unhidden)
  exact (keeps.mem_iff (name, entry) (by simp)).mpr exposed

/-- A yield that is not disturbed leaves the variable to visit afterwards if it was before. -/
theorem VarMaps.Sound.mem_drop_restoreIterator (unhidden : .hide name ∉ calls)
    (saved : Saved (maps subMap) it hint)
    (same : (calls.foldl VarCall.apply maps subMap).nbucket = (maps subMap).nbucket)
    (found : hint.atEntry = false →
      (calls.foldl VarCall.apply maps subMap).chain hint.offset ≠ [] →
        ∀ name ∈ hint.key, .hide name ∉ calls) :
    let m := calls.foldl VarCall.apply maps subMap
    (name, entry) ∈ m.elements.drop (m.restoreIterator hint) ↔
      (name, entry) ∈ (maps subMap).elements.drop it := by
  intro m
  have sound_after := sound.calls calls
  by_cases here : subMapIndex name = subMap
  case neg =>
    have elsewhere : ∀ {maps : VarMaps}, Sound maps → ∀ it,
        (name, entry) ∉ (maps subMap).elements.drop it := by
      intro maps sound it member
      exact here (sound.home subMap name (fst_mem_keys (mem_of_mem_drop member)))
    exact iff_of_false (elsewhere sound_after _) (elsewhere sound _)
  case pos =>
    have present : name ∈ (maps subMap).keys := here ▸ fst_mem_keys exposed
    obtain ⟨at_key, at_key_mem, saved_key⟩ := saved.key_mem
    -- The saved variable has to stay only where the chain is searched for it.
    by_cases searched : hint.atEntry = false ∧ m.chain hint.offset ≠ []
    case pos =>
      have keeps := sound.calls_keep calls subMap [name, at_key.1]
        (by simpa [present] using
          fst_mem_keys (((maps subMap).mem_elements at_key).mpr ⟨_, at_key_mem⟩))
        (by simpa [unhidden] using
          found searched.1 searched.2 at_key.1 (by simp [saved_key]))
      refine saved.mem_drop_restoreIterator (sound.lawful subMap) (sound_after.lawful subMap)
        keeps same (.inr (.inr ?_)) (by simp)
      simp [saved_key]
    case neg =>
      have keeps := sound.calls_keep calls subMap [name] (by simpa using present)
        (by simpa using unhidden)
      refine saved.mem_drop_restoreIterator (sound.lawful subMap) (sound_after.lawful subMap)
        keeps same ?_ (by simp)
      cases first : hint.atEntry with
      | true => exact .inl rfl
      | false =>
        refine .inr (.inl ?_)
        by_contra remains
        exact searched ⟨first, remains⟩

/-- A pass over the rest of a sub-map keeps the count, whether it ends or yields. -/
theorem listsOnce_leave (shown : args.shows entry) (inside : subMap < subMapCount) (start : Nat)
    (counted : countWith name names ((maps subMap).elements.drop start) =
      if subMapIndex name ≤ subMap then 1 else 0) :
    ListsOnce name entry (leave maps subMap
      (args.pass 0 names ((maps subMap).elements.drop start))) := by
  have shows_rest : ∀ item ∈ (maps subMap).elements.drop start, item.1 = name →
      args.shows item.2 := by
    intro item member same
    rw [sound.eq_entry exposed (mem_of_mem_drop member) same]
    exact shown
  cases passed : args.pass 0 names ((maps subMap).elements.drop start) with
  | mk listed left =>
    cases left with
    | none =>
      refine ⟨sound, exposed, inside, ?_⟩
      change listed.count name = if subMapIndex name < subMap + 1 then 1 else 0
      simp only [pass_end args shows_rest passed, counted, Nat.lt_succ_iff]
    | some left =>
      obtain ⟨pos, -, less⟩ := pass_left args passed
      have kept := pass_yield args shows_rest passed
      rw [length_drop] at less kept
      have it_lt : (maps subMap).elements.length - left < (maps subMap).elements.length := by
        omega
      refine ⟨sound, exposed, inside, (maps subMap).elements.length - left, by omega, it_lt,
        (sound.lawful subMap).saved it_lt, ?_⟩
      have same_rest : start + ((maps subMap).elements.length - start - left) =
          (maps subMap).elements.length - left := by omega
      rw [drop_drop, same_rest] at kept
      exact kept.trans counted

end

theorem ListsOnce.countWith_resumed (unhidden : .hide name ∉ calls)
    (once : ListsOnce name entry ⟨maps, names, .within subMap hint⟩)
    (undisturbed : Undisturbed ⟨maps, names, .within subMap hint⟩ calls) :
    let m := calls.foldl VarCall.apply maps subMap
    let it := m.restoreIterator hint
    countWith name (if it = 0 then [] else names) (m.elements.drop it) =
      if subMapIndex name ≤ subMap then 1 else 0 := by
  intro m it
  obtain ⟨sound, exposed, -, before, -, -, saved, counted⟩ := once
  obtain ⟨restarts, found⟩ := undisturbed
  have sound_after := sound.calls calls
  have exposed_after := sound.still_exposed exposed unhidden
  split
  case isTrue restarted =>
    -- The names are cleared, and the whole sub-map is scanned again.
    have late : ¬ subMapIndex name < subMap := by
      intro early
      have absent : (name, entry) ∉ (maps subMap).elements.drop before := by
        intro member
        have := sound.home subMap name (fst_mem_keys (mem_of_mem_drop member))
        omega
      have listed : names.count name = 1 := by
        rw [countWith, sound.count_drop exposed, if_neg absent, if_pos early.le] at counted
        exact counted
      have := restarts restarted name (count_pos_iff.mp (listed ▸ Nat.one_pos))
      omega
    have occurs := sound_after.count_keys exposed_after subMap
    rw [restarted]
    simp only [countWith, drop_zero, count_nil, Nat.zero_add]
    refine Eq.trans occurs ?_
    split_ifs <;> omega
  case isFalse resumed =>
    have same : m.nbucket = (maps subMap).nbucket := by
      by_contra resized
      have differ : hint.nbucket ≠ m.nbucket := by
        rw [saved.nbucket_eq]
        exact Ne.symm resized
      exact resumed (if_pos differ)
    have same_rest := sound.mem_drop_restoreIterator exposed unhidden saved same
      (found (same.trans saved.nbucket_eq.symm))
    rw [← counted, countWith, countWith, sound_after.count_drop exposed_after,
      sound.count_drop exposed, if_congr same_rest rfl rfl]

/-- The scan goes on after calls that leave the variable exposed and do not disturb a yield. -/
theorem ListsOnce.step (once : ListsOnce name entry scan) (shown : args.shows entry)
    (unhidden : .hide name ∉ calls) (undisturbed : Undisturbed scan calls)
    : ListsOnce name entry (args.step scan calls) := by
  obtain ⟨sound, exposed, counted⟩ := once
  obtain ⟨maps, names, point⟩ := scan
  have sound_after := sound.calls calls
  have exposed_after := sound.still_exposed exposed unhidden
  unfold step
  cases point with
  | before subMap =>
    obtain ⟨bound, counted⟩ := counted
    simp only [advance]
    split
    case isFalse => exact ⟨sound_after, exposed_after, bound, counted⟩
    case isTrue inside =>
      refine listsOnce_leave sound_after exposed_after shown inside 0 ?_
      have occurs := sound_after.count_keys exposed_after subMap
      simp only [countWith, drop_zero, counted]
      unfold FlatMap.keys at occurs
      rw [occurs]
      split_ifs <;> omega
  | within subMap hint =>
    have inside := counted.1
    have resumed_count :=
      ListsOnce.countWith_resumed unhidden ⟨sound, exposed, counted⟩ undisturbed
    simp only [advance] at resumed_count ⊢
    generalize calls.foldl VarCall.apply maps = after at *
    generalize (after subMap).restoreIterator hint = it at *
    generalize (if it = 0 then [] else names) = listed at *
    cases rest_eq : (after subMap).elements.drop it with
    | nil =>
      rw [rest_eq] at resumed_count
      refine ⟨sound_after, exposed_after, inside, ?_⟩
      simpa [countWith, Nat.lt_succ_iff] using resumed_count
    | cons item rest =>
      have tail_eq : rest = (after subMap).elements.drop (it + 1) := by
        rw [← tail_drop, rest_eq, tail_cons]
      have member := mem_of_mem_drop (rest_eq ▸ mem_cons_self)
      have shows_first : item.1 = name → args.shows item.2 := by
        intro same
        rw [sound_after.eq_entry exposed_after member same]
        exact shown
      rw [rest_eq, ← countWith_cons args listed item rest shows_first] at resumed_count
      subst tail_eq
      exact listsOnce_leave sound_after exposed_after shown inside (it + 1) resumed_count

/-- Left alone, the call returns, with no yield disturbed. -/
def Settles (args : ListArguments) (scan : Scan) : Prop :=
  ∃ passes, Execution.EveryStep args.step Undisturbed scan (replicate passes []) ∧
    ((replicate passes []).foldl args.step scan).Returned

theorem settles_of_step (undisturbed : Undisturbed scan [])
    (later : Settles args (args.step scan [])) : Settles args scan := by
  obtain ⟨passes, every, returned⟩ := later
  refine ⟨passes + 1, ?_, ?_⟩
  · rw [replicate_succ, everyStep_cons]
    exact ⟨undisturbed, every⟩
  · rw [replicate_succ]
    exact returned

theorem settles_leave (sound : VarMaps.Sound maps) (start : Nat)
    (next : ∀ names, Settles args ⟨maps, names, .before (subMap + 1)⟩)
    (further : ∀ it hint names, start < it → it < (maps subMap).elements.length →
      Saved (maps subMap) it hint → Settles args ⟨maps, names, .within subMap hint⟩) :
    Settles args (leave maps subMap
      (args.pass 0 names ((maps subMap).elements.drop start))) := by
  cases passed : args.pass 0 names ((maps subMap).elements.drop start) with
  | mk listed left =>
    cases left with
    | none => exact next listed
    | some left =>
      obtain ⟨pos, -, less⟩ := pass_left args passed
      rw [length_drop] at less
      have it_lt : (maps subMap).elements.length - left < (maps subMap).elements.length := by
        omega
      exact further _ _ _ (by omega) it_lt ((sound.lawful subMap).saved it_lt)

theorem undisturbed_quiet (pos : 0 < it) (inside : it < (maps subMap).elements.length)
    (saved : Saved (maps subMap) it hint) : Undisturbed ⟨maps, names, .within subMap hint⟩ [] := by
  refine ⟨?_, by simp⟩
  intro restarted
  have same_rest := congrArg length saved.drop_restoreIterator_self
  change (maps subMap).restoreIterator hint = 0 at restarted
  rw [restarted, drop_zero, length_drop] at same_rest
  omega

theorem settles_within (sound : VarMaps.Sound maps)
    (next : ∀ names, Settles args ⟨maps, names, .before (subMap + 1)⟩) (pos : 0 < it)
    (inside : it < (maps subMap).elements.length) (saved : Saved (maps subMap) it hint) :
    Settles args ⟨maps, names, .within subMap hint⟩ := by
  -- Each pass visits an element at least, so fewer are left at the next yield.
  induction left : (maps subMap).elements.length - it using Nat.strong_induction_on
    generalizing it hint names with
  | _ left ih =>
    refine settles_of_step (undisturbed_quiet pos inside saved) ?_
    have rest_eq := saved.drop_restoreIterator_self
    rw [drop_eq_getElem_cons inside] at rest_eq
    simp only [step, foldl_nil, advance, rest_eq]
    refine settles_leave sound (it + 1) next ?_
    intro later laterHint listed after later_inside later_saved
    exact ih _ (by omega) (by omega) later_inside later_saved rfl

theorem settles_before (sound : VarMaps.Sound maps) (bound : subMap ≤ subMapCount) :
    Settles args ⟨maps, names, .before subMap⟩ := by
  induction bound using Nat.decreasingInduction generalizing names with
  | self => exact ⟨0, everyStep_nil _ _ _, rfl⟩
  | of_succ subMap inside ih =>
    refine settles_of_step trivial ?_
    simp only [step, foldl_nil, advance, if_pos inside]
    refine settles_leave sound 0 (fun _ => ih) ?_
    intro it hint listed pos it_inside saved
    exact settles_within sound (fun _ => ih) pos it_inside saved

theorem ListsOnce.settles (once : ListsOnce name entry scan) : Settles args scan := by
  obtain ⟨sound, -, counted⟩ := once
  obtain ⟨maps, names, point⟩ := scan
  cases point with
  | before subMap => exact settles_before sound counted.1
  | within subMap hint =>
    obtain ⟨inside, it, pos, it_inside, saved, -⟩ := counted
    exact settles_within sound (fun _ => settles_before sound inside) pos it_inside saved

theorem ListsOnce.run {yields : List (List VarCall)} (once : ListsOnce name entry scan)
    (shown : args.shows entry) (unhidden : ∀ calls ∈ yields, .hide name ∉ calls)
    (undisturbed : Execution.EveryStep args.step Undisturbed scan yields) :
    ListsOnce name entry (yields.foldl args.step scan) := by
  induction yields generalizing scan with
  | nil => exact once
  | cons calls yields ih =>
    obtain ⟨first, rest⟩ := (everyStep_cons ..).mp undisturbed
    refine ih (once.step shown (unhidden calls mem_cons_self) first) ?_ rest
    intro later member
    exact unhidden later (mem_cons_of_mem _ member)

end Scan

theorem ListsOnce.count_names {name : VarName} {entry : VarEntry} {scan : Scan}
    (once : ListsOnce name entry scan) (returned : scan.Returned) : scan.names.count name = 1 := by
  have counted := once.counted
  rw [returned] at counted
  rw [counted.2, if_pos]
  have bound : subMapIndex name ≤ subMapCount - 1 := Nat.and_le_right
  exact Nat.lt_of_le_pred (by decide) bound

/-- In every run in which no yield is disturbed, a variable that is exposed on entry, is to be
shown and is not hidden is listed exactly once; and left alone the call returns. -/
theorem listExposed_count_eq_one (args : ListArguments) (history : List VarCall)
    (yields : List (List VarCall)) (name : VarName) (entry : VarEntry)
    (exposed : (history.foldl VarCall.apply initVarMaps (subMapIndex name)).seek name = some entry)
    (shown : args.shows entry) (unhidden : ∀ calls ∈ yields, .hide name ∉ calls)
    (undisturbed : Execution.EveryStep args.step Undisturbed
      (Scan.start (history.foldl VarCall.apply initVarMaps)) yields) :
    let scan := yields.foldl args.step (Scan.start (history.foldl VarCall.apply initVarMaps))
    (scan.Returned → scan.names.count name = 1) ∧
      ∃ passes, ((replicate passes []).foldl args.step scan).Returned ∧
        ((replicate passes []).foldl args.step scan).names.count name = 1 := by
  intro scan
  have sound := sound_initVarMaps.calls history
  have start : ListsOnce name entry (Scan.start (history.foldl VarCall.apply initVarMaps)) :=
    ⟨sound, mem_elements_of_seek exposed, by simp [Scan.start]⟩
  have once := start.run shown unhidden undisturbed
  have settles : Settles args scan := once.settles
  obtain ⟨passes, quiet, returned⟩ := settles
  refine ⟨once.count_names, passes, returned, ?_⟩
  refine (once.run shown ?_ quiet).count_names returned
  intro calls member
  simp [eq_of_mem_replicate member]

/-- The names of so many blocks, each `aa` or `ko`: the two have the same hash code modulo 1024,
so all the names of one length share a sub-map and a chain. -/
def blockNames : Nat → List VarName
  | 0 => [[]]
  | blocks + 1 =>
    (blockNames blocks).flatMap fun name => ['a' :: 'a' :: name, 'k' :: 'o' :: name]

theorem nodup_blockNames (blocks : Nat) : (blockNames blocks).Nodup := by
  induction blocks with
  | zero => simp [blockNames]
  | succ blocks ih =>
    refine nodup_flatMap.mpr ⟨by simp, ih.imp ?_⟩
    intro left right differ
    simp [disjoint_left, differ]

/-- A sub-map whose elements are all in one chain. -/
def oneChain (chainEntry : Nat) (elements : List (VarName × VarEntry)) : VarMap :=
  { new.setChain chainEntry elements with size := elements.length }

theorem nbucket_new : new.nbucket = 1024 := by
  simp only [new, FlatMap.init, FlatMap.nbucket, length_replicate]
  decide

theorem foldl_expose_new {maps : VarMaps} (sound : VarMaps.Sound maps) (subMap chainEntry : Nat)
    (empty : maps subMap = new) (entry : VarEntry) (names : List VarName)
    (once : names.Nodup) (here : ∀ name ∈ names, subMapIndex name = subMap)
    (together : ∀ name ∈ names, stringHash name &&& 1023 = chainEntry) (few : names.length < 819) :
    (names.map fun name => VarCall.expose name entry).foldl VarCall.apply maps =
      Function.update maps subMap (oneChain chainEntry (names.map fun name => (name, entry))) := by
  have keys_new : new.keys = [] := by simp [new, FlatMap.keys]
  have size_new : new.size = 0 := rfl
  have chain_new : new.chain chainEntry = [] := by
    by_contra filled
    obtain ⟨item, member⟩ := exists_mem_of_ne_nil _ filled
    have listed := fst_mem_keys ((mem_elements _ item).mpr ⟨_, member⟩)
    simp [keys_new] at listed
  have index_eq : ∀ item ∈ names.map fun name => (name, entry),
      new.index item.1 = chainEntry := by
    intro item member
    obtain ⟨name, mem, rfl⟩ := mem_map.mp member
    rw [index, nbucket_new]
    exact together name mem
  have room : (new.size + (names.map fun name => (name, entry)).length) * 100 <
      new.nbucket * new.loadFactor := by
    rw [nbucket_new, length_map]
    change (0 + names.length) * 100 < 1024 * 80
    omega
  have inserted := foldl_insert_eq (m := new) _ (lawful_init _ _ _)
    (by simpa [comp_def] using once) (by simp [keys_new]) index_eq room
  rw [sound.foldl_expose subMap entry names once here (by simp [empty, keys_new]), empty, inserted,
    chain_new, nil_append, size_new, Nat.zero_add, oneChain]

/-- A variable alone in its sub-map, then 256 variables in one chain of a later sub-map. -/
def chainHistory : List VarCall :=
  .expose ['a'] ⟨false, 3⟩ :: (blockNames 8).map fun name => .expose name ⟨false, 3⟩

def chainMaps : VarMaps :=
  Function.update (Function.update initVarMaps 1 (oneChain 97 [(['a'], ⟨false, 3⟩)])) 16
    (oneChain 752 ((blockNames 8).map fun name => (name, ⟨false, 3⟩)))

theorem foldl_chainHistory : chainHistory.foldl VarCall.apply initVarMaps = chainMaps := by
  have first := foldl_expose_new sound_initVarMaps 1 97 rfl
    ⟨false, 3⟩ [['a']] (by simp) (by decide) (by decide) (by decide)
  have sound := sound_initVarMaps.calls [.expose ['a'] ⟨false, 3⟩]
  rw [map_cons, map_nil] at first
  rw [first] at sound
  have second := foldl_expose_new sound 16 752 (by simp [initVarMaps]) ⟨false, 3⟩
    (blockNames 8) (nodup_blockNames 8) (by decide +kernel) (by decide +kernel) (by decide +kernel)
  rw [foldl_cons, foldl_nil] at first
  rw [chainHistory, foldl_cons, first]
  exact second

instance decidableUndisturbed (scan : Scan) (calls : List VarCall) :
    Decidable (Undisturbed scan calls) := by
  unfold Undisturbed
  split
  · infer_instance
  · dsimp only
    infer_instance

/-- The scan yields at the last variable of the chain, the first one is hidden meanwhile, and the
scan goes on: the last one is listed once. -/
theorem listExposed_count_eq_one_chain :
    let yields : List (List VarCall) :=
      replicate 17 [] ++ [.hide (replicate 8 ['a', 'a']).flatten] :: replicate 15 []
    let scan := yields.foldl (mk 3 false).step
      (Scan.start (chainHistory.foldl VarCall.apply initVarMaps))
    scan.Returned ∧ scan.names.count (replicate 8 ['k', 'o']).flatten = 1 := by
  refine (and_iff_left_of_imp (listExposed_count_eq_one ⟨3, false⟩ chainHistory _
    (replicate 8 ['k', 'o']).flatten ⟨false, 3⟩ ?_ (by decide) (by decide) ?_).1).mpr ?_
  · rw [foldl_chainHistory]
    decide +kernel
  · rw [foldl_chainHistory]
    decide +kernel
  · rw [foldl_chainHistory]
    unfold Scan.Returned
    decide +kernel

/-- The last variable of the chain is hidden in the yield that was saved at it: the scan resumes
at the begin of the sub-map, and the source clears what it has listed before. -/
theorem listExposed_misses_variable :
    let yields : List (List VarCall) :=
      replicate 17 [] ++ [.hide (replicate 8 ['k', 'o']).flatten] :: replicate 15 []
    let scan := yields.foldl (mk 3 false).step
      (Scan.start (chainHistory.foldl VarCall.apply initVarMaps))
    (chainHistory.foldl VarCall.apply initVarMaps (subMapIndex ['a'])).seek ['a'] =
        some ⟨false, 3⟩ ∧
      (∀ calls ∈ yields, .hide ['a'] ∉ calls) ∧ scan.Returned ∧ scan.names.count ['a'] = 0 := by
  rw [foldl_chainHistory]
  refine ⟨by decide +kernel, by simp, ?_⟩
  unfold Scan.Returned
  decide +kernel

end McBrpc
