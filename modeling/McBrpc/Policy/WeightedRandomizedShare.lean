import McBrpc.Policy.WeightedRandomized

/-!
# The shares of the weighted randomized balancer

The dice runs from zero to one less than the sum of the weights.  The first server therefore owns
the values up to and including its weight, one more than its share, and the last one has one less.
-/

namespace McBrpc.WeightedRandomized

open List UInt64 Nat Option

theorem lt_countP_range_iff {test : Nat → Bool} {count : Nat}
    (downward : ∀ ⦃left right⦄, left ≤ right → right < count → test right → test left)
    {value : Nat} (inside : value < count) :
    value < (range count).countP test ↔ test value := by
  induction count with
  | zero => omega
  | succ count ih =>
    have at_most : (range count).countP test ≤ count := by
      simpa using countP_le_length (p := test) (l := range count)
    rw [range_succ, countP_append, countP_singleton]
    cases last : test count with
    | true =>
      -- the last value passes, and all others with it
      have all : (range count).countP test = (range count).length := by
        refine countP_eq_length.mpr fun other mem => ?_
        exact downward (mem_range.mp mem).le (Nat.lt_succ_self _) last
      have passes := downward (le_of_lt_succ inside) (Nat.lt_succ_self _) last
      rw [all, length_range, if_pos rfl]
      exact iff_of_true inside passes
    | false =>
      rw [if_neg Bool.false_ne_true, add_zero]
      rcases Nat.lt_succ_iff_lt_or_eq.mp inside with before | rfl
      · refine ih (fun left right le right_lt => ?_) before
        exact downward le (right_lt.trans (Nat.lt_succ_self _))
      · rw [last]
        exact iff_of_false (by omega) Bool.false_ne_true

section Pick

variable {s : Servers}

theorem serverCompare_mono {dice larger : Nat} (le : dice ≤ larger) (fits : larger < 2 ^ 64)
    (position : Nat) (below : serverCompare s dice position) : serverCompare s larger position := by
  rw [serverCompare] at below ⊢
  cases here : s.serverList[position]? with
  | none => simp [here] at below
  | some server =>
    have dice_eq : (ofNat dice).toNat = dice :=
      toNat_ofNat_of_lt' (le.trans_lt fits)
    have larger_eq : (ofNat larger).toNat = larger := toNat_ofNat_of_lt' fits
    simp only [here, any_some, decide_eq_true_eq, lt_iff_toNat_lt, dice_eq, larger_eq] at below ⊢
    omega

theorem pickPosition_mono {dice larger : Nat} (le : dice ≤ larger) (fits : larger < 2 ^ 64) :
    pickPosition s dice ≤ pickPosition s larger :=
  lowerBound_mono (serverCompare_mono le fits) _

theorem pickPosition_single {server : Server} (alone : s.serverList = [server]) {dice : Nat}
    (fits : dice < 2 ^ 64) (small : dice ≤ server.currentWeightSum.toNat) :
    pickPosition s dice = 0 := by
  have dice_eq : (ofNat dice).toNat = dice := toNat_ofNat_of_lt' fits
  have not_below : serverCompare s dice 0 = false := by
    simp only [serverCompare, alone, getElem?_cons_zero, any_some,
      decide_eq_false_iff_not, lt_iff_toNat_lt, dice_eq]
    omega
  rw [pickPosition, alone, lowerBound, length_singleton, lowerBoundFrom]
  simp [not_below, lowerBoundFrom]

theorem currentWeightSum_of_pickPosition {first : Server}
    (here : s.serverList[0]? = some first) {dice : Nat} (fits : dice + 1 < 2 ^ 64)
    (stays : pickPosition s dice = 0) (leaves : pickPosition s (dice + 1) = 1) :
    first.currentWeightSum.toNat = dice := by
  have dice_eq : (ofNat dice).toNat = dice :=
    toNat_ofNat_of_lt' ((Nat.lt_succ_self _).trans fits)
  have next_eq := toNat_ofNat_of_lt' fits
  have ne : pickPosition s dice < pickPosition s (dice + 1) := by
    rw [stays, leaves]
    exact one_pos
  obtain ⟨place, -, before, not_below, below⟩ :=
    exists_of_lowerBound_lt (serverCompare_mono (le_succ dice) fits) ne
  rw [← pickPosition, leaves] at before
  obtain rfl : place = 0 := by omega
  simp only [serverCompare, here, any_some, decide_eq_true_eq, decide_eq_false_iff_not,
    lt_iff_toNat_lt, dice_eq, next_eq] at not_below below
  omega

end Pick

variable {Addr : Type*} {s : Servers} {call : SelectCall Addr}

/-- The call with the value of its first draw. -/
def SelectCall.withDice (call : SelectCall Addr) (dice : Nat) : SelectCall Addr :=
  { call with random := fun draw => if draw = 0 then dice else call.random draw }

/-- The number of values of the first draw for which the server is selected. -/
def share (call : SelectCall Addr) (s : Servers) (id : SocketId) : Nat :=
  (range s.weightSum.toNat).countP fun dice =>
    (selectServer (call.withDice dice) s).bind Except.toOption = some id

section

variable (taken : ∀ server ∈ s.serverList,
  call.input.isExcluded server.id = false ∧ call.sockets.available server.id = true)
include taken

theorem selectServer_withDice
    (ne : s.serverList ≠ []) {dice : Nat} (inside : dice < s.weightSum.toNat) :
    selectServer (call.withDice dice) s =
      s.serverList[pickPosition s dice]?.map fun server => .ok server.id := by
  obtain ⟨others, length_eq⟩ :=
    exists_eq_succ_of_ne_zero (length_pos_of_ne_nil ne).ne'
  have dice_eq : fastRandLessThan s.weightSum.toNat ((call.withDice dice).random 0) = dice := by
    rw [fastRandLessThan, if_neg (Nat.ne_zero_of_lt inside)]
    exact Nat.mod_eq_of_lt inside
  rw [selectServer, if_neg ne, length_eq, selectLoop]
  simp only [dice_eq]
  cases found : s.serverList[pickPosition s dice]? with
  | none => rfl
  | some server =>
    have passes := taken server (mem_of_getElem? found)
    exact if_pos ⟨.inr passes.1, passes.2⟩

theorem share_eq {index : Nat} {server : Server} (here : s.serverList[index]? = some server) :
    share call s server.id =
      (range s.weightSum.toNat).countP fun dice => pickPosition s dice = index := by
  refine countP_congr fun dice dice_mem => ?_
  have nonempty := ne_nil_of_mem (mem_of_getElem? here)
  rw [selectServer_withDice taken nonempty (mem_range.mp dice_mem)]
  simp only [decide_eq_true_eq]
  constructor
  · intro chosen
    have named : s.serverList[pickPosition s dice]?.map Server.id = some server.id := by
      cases found : s.serverList[pickPosition s dice]? with
      | none => simp [found] at chosen
      | some other => simpa [found, Except.toOption] using chosen
    refine s.servers.position_unique (k := server.id) ?_ ?_
    · rw [getElem?_map]
      exact named
    · rw [getElem?_map]
      exact congrArg (Option.map Server.id) here
  · rintro rfl
    rw [here]
    rfl

end

theorem weightSum_toNat_of_available
    (available : ∀ server ∈ s.serverList, call.sockets.available server.id = true) :
    s.weightSum.toNat = totalWeight s.serverList := by
  rw [s.weightSum_eq]
  exact toNat_ofNat_of_lt' (sum_weights_lt Server.weight
    (Sockets.nodup_slots_of_available s.nodup_ids available))

theorem currentWeightSum_mod_of_first {first : Server} (here : s.serverList[0]? = some first) :
    first.currentWeightSum.toNat % 2 ^ 32 = first.weight.toNat := by
  have sum_eq := s.runningSums 0 first here
  have taken : s.servers.items.take 1 = [first] := by
    have list_eq : s.servers.items[0]? = some first := here
    rw [take_one, head?_eq_getElem?, list_eq]
    rfl
  rw [zero_add, taken, map_singleton, sum_singleton] at sum_eq
  rw [← sum_eq, toNat_toUInt32]

/-- With several servers, the first one does not have its share. -/
theorem not_fair_of_several {first second : Server} {others : List Server}
    (list_eq : s.serverList = first :: second :: others)
    (sum_eq : s.weightSum.toNat = totalWeight s.serverList)
    (first_share : (range s.weightSum.toNat).countP (fun dice => pickPosition s dice = 0) =
      first.weight.toNat)
    (second_share : (range s.weightSum.toNat).countP (fun dice => pickPosition s dice = 1) =
      second.weight.toNat) : False := by
  have fits : s.weightSum.toNat < 2 ^ 64 := s.weightSum.toNat_lt
  have first_mem : first ∈ s.serverList := by simp [list_eq]
  have second_mem : second ∈ s.serverList := by simp [list_eq]
  have first_pos : 0 < first.weight.toNat := s.weight_pos first first_mem
  have second_pos : 0 < second.weight.toNat := s.weight_pos second second_mem
  have both_le : first.weight.toNat + second.weight.toNat ≤ s.weightSum.toNat := by
    rw [sum_eq, list_eq, totalWeight_cons, totalWeight_cons]
    omega
  -- the values that lead to the first server are those below its weight
  have leads : ∀ dice < s.weightSum.toNat, dice < first.weight.toNat ↔ pickPosition s dice = 0 := by
    intro dice inside
    rw [← first_share]
    refine (lt_countP_range_iff ?_ inside).trans decide_eq_true_iff
    intro left right le right_lt stays
    have mono := pickPosition_mono (s := s) le (right_lt.trans fits)
    simp only [decide_eq_true_eq] at stays ⊢
    omega
  have stays : pickPosition s (first.weight.toNat - 1) = 0 := (leads _ (by omega)).mp (by omega)
  have leaves : pickPosition s (first.weight.toNat - 1 + 1) = 1 := by
    have moved := mt (leads first.weight.toNat (by omega)).mpr (lt_irrefl _)
    obtain ⟨dice, dice_mem, at_second⟩ := countP_pos_iff.mp (second_share ▸ second_pos)
    have at_second : pickPosition s dice = 1 := by simpa using at_second
    have dice_lt := mem_range.mp dice_mem
    have behind := mt (leads dice dice_lt).mp (by omega)
    have mono := pickPosition_mono (s := s) (Nat.le_of_not_lt behind) (dice_lt.trans fits)
    rw [Nat.sub_add_cancel first_pos]
    omega
  have at_first : s.serverList[0]? = some first := by simp [list_eq]
  have sum_first := currentWeightSum_of_pickPosition at_first (by omega) stays leaves
  have congruent := currentWeightSum_mod_of_first at_first
  omega

/-- The share of every server is its weight if and only if there is at most one server. -/
theorem share_eq_weight_iff (accepted : ∀ server ∈ s.serverList,
      call.input.isExcluded server.id = false ∧ call.sockets.available server.id = true) :
    (∀ server ∈ s.serverList, share call s server.id = server.weight.toNat) ↔
      s.serverList.length ≤ 1 := by
  have sum_eq := weightSum_toNat_of_available fun server server_mem =>
    (accepted server server_mem).2
  constructor
  · intro fair
    match list_eq : s.serverList with
    | [] => simp
    | [_] => simp
    | first :: second :: others =>
      have at_first : s.serverList[0]? = some first := by simp [list_eq]
      have at_second : s.serverList[1]? = some second := by simp [list_eq]
      refine (not_fair_of_several list_eq sum_eq ?_ ?_).elim
      · rw [← share_eq accepted at_first]
        exact fair first (mem_of_getElem? at_first)
      · rw [← share_eq accepted at_second]
        exact fair second (mem_of_getElem? at_second)
  · intro few server server_mem
    obtain ⟨same, alone⟩ := length_eq_one_iff.mp
      (le_antisymm few (length_pos_of_mem server_mem))
    obtain rfl : server = same := by simpa [alone] using server_mem
    have here : s.serverList[0]? = some server := by simp [alone]
    have congruent := currentWeightSum_mod_of_first here
    have weight_eq : s.weightSum.toNat = server.weight.toNat := by simp [sum_eq, alone, totalWeight]
    have all : (range s.weightSum.toNat).countP (fun dice => pickPosition s dice = 0) =
        (range s.weightSum.toNat).length := by
      refine countP_eq_length.mpr fun dice dice_mem => decide_eq_true ?_
      have dice_lt := mem_range.mp dice_mem
      have fits := dice_lt.trans s.weightSum.toNat_lt
      exact pickPosition_single alone fits (by omega)
    rw [share_eq accepted here, all, length_range, weight_eq]

def evenPair : Servers := (batchAdd 0 .new [⟨1, "1"⟩, ⟨2, "1"⟩]).2

def pairCall : SelectCall Unit where
  sockets _ := some ⟨0, (), false, 0⟩
  input := ⟨0, false, false, 0, none⟩
  random _ := 0

theorem share_eq_weight_iff_evenPair :
    ¬∀ server ∈ evenPair.serverList, share pairCall evenPair server.id = server.weight.toNat :=
  mt (share_eq_weight_iff (by decide)).mp (by decide)

/-- Both values of the dice select the first server. -/
theorem share_evenPair : share pairCall evenPair 1 = 2 ∧ share pairCall evenPair 2 = 0 := by
  decide +kernel

end McBrpc.WeightedRandomized
