import McBrpc.Policy.WeightedStride

/-!
# Selections of the weighted round robin balancer

`SelectServer` proposes one server after the other, each time by a stride on the circle without the
servers proposed before.  The weight of those not yet proposed is computed modulo `2 ^ 64`, and a
remainder of zero would divide by zero.
-/

namespace McBrpc.WeightedRoundRobin

open List Nat

namespace Servers

/-- No selection of the servers has a weight that a `uint64_t` takes for zero. -/
def NoZeroWeight (s : Servers) : Prop :=
  ∀ rest, rest.Sublist s.serverList → rest ≠ [] → UInt64.ofNat (totalWeight rest) ≠ 0

variable {s : Servers}

theorem serverList_weight_pos (s : Servers) : ∀ server ∈ s.serverList, 0 < server.weight :=
  s.weight_pos

theorem totalWeight_pos {servers rest : List Server}
    (weight_pos : ∀ server ∈ servers, 0 < server.weight) (sublist : rest.Sublist servers)
    (ne : rest ≠ []) : 0 < totalWeight rest := by
  obtain ⟨server, rest, rfl⟩ := exists_cons_of_ne_nil ne
  have pos : 0 < server.weight.toNat :=
    weight_pos server (sublist.subset mem_cons_self)
  rw [totalWeight_cons]
  omega

theorem totalWeight_le {servers rest : List Server} (sublist : rest.Sublist servers) :
    totalWeight rest ≤ totalWeight servers := by
  induction sublist with
  | slnil => exact le_rfl
  | cons server _ ih => exact ih.trans (le_add_left _ _)
  | cons_cons server _ ih => exact Nat.add_le_add_left ih _

theorem noZeroWeight_of_lt (fits : totalWeight s.serverList < 2 ^ 64) : s.NoZeroWeight := by
  intro rest sublist ne zero
  have positive := totalWeight_pos s.serverList_weight_pos sublist ne
  have small := (totalWeight_le sublist).trans_lt fits
  have toNat_eq := UInt64.toNat_ofNat_of_lt' small
  rw [zero] at toNat_eq
  exact positive.ne toNat_eq

theorem NoZeroWeight.weightSum_ne (noZero : s.NoZeroWeight) (ne : s.serverList ≠ []) :
    s.weightSum ≠ 0 := by
  rw [s.weightSum_eq]
  exact noZero _ (List.Sublist.refl _) ne

theorem lookup {server : Server} (mem : server ∈ s.serverList) :
    (s.serverMap.find? server.id).bind (s.serverList[·]?) = some server := by
  obtain ⟨position, here⟩ := mem_iff_getElem?.mp mem
  have found : s.serverMap.find? server.id = some position := by
    refine (s.servers.index_iff server.id position).mpr ?_
    rw [getElem?_map]
    exact congrArg (Option.map Server.id) here
  rw [found]
  exact here

def untried (s : Servers) (filter : List SocketId) : List Server :=
  s.serverList.filter fun server => server.id ∉ filter

theorem nodup_serverList (s : Servers) : s.serverList.Nodup := s.nodup_ids.of_map

theorem eq_of_id_eq {left right : Server} (left_mem : left ∈ s.serverList)
    (right_mem : right ∈ s.serverList) (same : left.id = right.id) : left = right :=
  inj_on_of_nodup_map s.nodup_ids left_mem right_mem same

theorem untried_perm {server : Server} (server_mem : server ∈ s.serverList)
    {filter : List SocketId} (kept : server.id ∉ filter) :
    (s.untried filter).Perm (server :: s.untried (server.id :: filter)) := by
  have mem : server ∈ s.untried filter :=
    mem_filter.mpr ⟨server_mem, by simpa using kept⟩
  have rest : (s.untried filter).erase server = s.untried (server.id :: filter) := by
    rw [untried, (s.nodup_serverList.filter _).erase_eq_filter, untried, filter_filter]
    refine filter_congr ?_
    intro other other_mem
    have differ := not_congr ⟨congrArg Server.id, eq_of_id_eq other_mem server_mem⟩
    simp only [mem_cons, not_or, Bool.decide_and, ← differ]
    simp [bne, Bool.beq_eq_decide_eq]
  rw [← rest]
  exact perm_cons_erase mem

end Servers

section Round

variable {Addr : Type*} {call : SelectCall Addr} {s : Servers} {tls : TLS}

/-- A stride is known as soon as the thread has seen a list. -/
def TLS.Strided (tls : TLS) : Prop := tls.serversNum ≠ 0 → 0 < tls.stride

/-- The thread-local state fits the list. -/
structure Adapted (s : Servers) (tls : TLS) : Prop where
  stride_pos : 0 < tls.stride
  inside : tls.position < s.serverList.length
  remains : tls.remainServer.weight = 0 ∨
    ∃ server ∈ s.serverList, server.id = tls.remainServer.id

/-- What a selection may answer for a list with servers. -/
def Answers (call : SelectCall Addr) (s : Servers) (result : Except Errno SocketId) : Prop :=
  (∃ server ∈ s.serverList, result = .ok server.id ∧ call.accepts server.id) ∨
    (result = .error .ehostdown ∧ ∀ server ∈ s.serverList, call.accepts server.id = false)

theorem getStride_of_ne {weightSum : UInt64} (nonzero : weightSum ≠ 0) (num : Nat) :
    ∃ stride, getStride weightSum.toNat num = some stride ∧ 0 < stride := by
  have pos : 0 < weightSum.toNat :=
    pos_of_ne_zero fun zero => nonzero (UInt64.toNat.inj zero)
  obtain ⟨stride, found, stride_pos, -⟩ := getStride_spec pos weightSum.toNat_lt num
  exact ⟨stride, found, stride_pos⟩

theorem refresh_adapted (call : SelectCall Addr) (ne : s.serverList ≠ [])
    (nonzero : s.weightSum ≠ 0) (strided : tls.Strided) :
    ∃ after, refresh call s tls = some after ∧ Adapted s after := by
  have length_pos : 0 < s.serverList.length := length_pos_of_ne_nil ne
  -- the second half of the preparation needs only a stride
  have adapt : ∀ tls : TLS, 0 < tls.stride → Adapted s
      (if tls.remainServer.weight > 0 ∧
          s.serverList[tls.position % s.serverList.length]?.map Server.id ≠
            some tls.remainServer.id then
        { tls with
          position := tls.position % s.serverList.length
          remainServer := { tls.remainServer with weight := 0 } }
      else { tls with position := tls.position % s.serverList.length }) := by
    intro tls stride_pos
    split
    · exact ⟨stride_pos, mod_lt _ length_pos, .inl rfl⟩
    · next kept =>
      refine ⟨stride_pos, mod_lt _ length_pos, ?_⟩
      rcases Classical.em (tls.remainServer.weight > 0) with some_remains | none_remains
      · right
        have here := not_not.mp fun differ => kept ⟨some_remains, differ⟩
        obtain ⟨server, at_position, same⟩ := Option.map_eq_some_iff.mp here
        exact ⟨server, mem_of_getElem? at_position, same⟩
      · left
        simpa [UInt32.pos_iff_ne_zero] using none_remains
  rw [refresh]
  simp only [TLS.isNeededCalculateNewStride]
  split
  · next unchanged =>
    split at unchanged
    · simp at unchanged
    · next same =>
      obtain ⟨-, rfl⟩ := Prod.mk.inj unchanged
      refine ⟨_, rfl, adapt tls (strided ?_)⟩
      intro zero
      exact same (.inr (zero ▸ length_pos.ne'))
  · next changed =>
    obtain ⟨stride, found, stride_pos⟩ := getStride_of_ne nonzero s.serverList.length
    refine ⟨_, by rw [found]; rfl, adapt _ stride_pos⟩

/-- What holds of the filtered servers in each round. -/
structure Tried (call : SelectCall Addr) (s : Servers) (remainServers : Nat)
    (filter : List SocketId) : Prop where
  nodup : filter.Nodup
  listed : filter ⊆ s.serverList.map Server.id
  refused : ∀ id ∈ filter, call.accepts id = false
  count : filter.length + remainServers = s.serverList.length

namespace Tried

variable {remain : Nat} {filter : List SocketId}

theorem start (call : SelectCall Addr) (s : Servers) : Tried call s s.serverList.length [] where
  nodup := nodup_nil
  listed := nil_subset _
  refused _ id_mem := absurd id_mem not_mem_nil
  count := zero_add _

theorem all_refused (tried : Tried call s 0 filter) {server : Server}
    (mem : server ∈ s.serverList) : call.accepts server.id = false := by
  have perm : filter.Perm (s.serverList.map Server.id) := by
    refine (subperm_of_subset tried.nodup tried.listed).perm_of_length_le ?_
    rw [length_map, ← tried.count, add_zero]
  exact tried.refused _ (perm.mem_iff.mpr (mem_map_of_mem mem))

theorem exists_untried (tried : Tried call s (remain + 1) filter) :
    ∃ server ∈ s.serverList, server.id ∉ filter := by
  by_contra none_left
  simp only [not_exists, not_and, not_not] at none_left
  have within : s.serverList.map Server.id ⊆ filter := by
    intro id id_mem
    obtain ⟨server, mem, rfl⟩ := mem_map.mp id_mem
    exact none_left server mem
  have length_le := (subperm_of_subset s.nodup_ids within).length_le
  rw [length_map, ← tried.count] at length_le
  omega

theorem cons (tried : Tried call s (remain + 1) filter) {server : Server}
    (mem : server ∈ s.serverList) (kept : server.id ∉ filter)
    (refused : call.accepts server.id = false) :
    Tried call s remain (server.id :: filter) where
  nodup := nodup_cons.mpr ⟨kept, tried.nodup⟩
  listed := cons_subset.mpr ⟨mem_map_of_mem mem, tried.listed⟩
  refused id id_mem := by
    rcases mem_cons.mp id_mem with rfl | prior
    · exact refused
    · exact tried.refused id prior
  count := by
    rw [length_cons, ← tried.count]
    omega

end Tried

theorem selectLoop_settles (noZero : s.NoZeroWeight) (adapted : Adapted s tls)
    {remain : Nat} {filter : List SocketId} (tried : Tried call s remain filter)
    {remainWeight : UInt64} (weight_eq : remainWeight = .ofNat (totalWeight (s.untried filter)))
    {tlsTemp : TLS} (temp : Adapted s tlsTemp) :
    ∃ result after,
      SettlesOn (selectLoop · call s tls remain filter remainWeight tlsTemp)
        (result, after) ∧ Answers call s result := by
  induction remain generalizing filter remainWeight tlsTemp with
  | zero => exact ⟨_, _, .of_forall fun _ => rfl, .inr ⟨rfl, fun _ => tried.all_refused⟩⟩
  | succ remain ih =>
    obtain ⟨free, free_mem, free_untried⟩ := tried.exists_untried
    obtain ⟨goal, at_goal⟩ := mem_iff_getElem?.mp free_mem
    obtain ⟨⟨id, walked⟩, settles⟩ :=
      getServerInNextStride_settles s.serverList_weight_pos at_goal free_untried temp.inside
    obtain ⟨fuel, returned⟩ := settles.returns
    obtain ⟨kept, server, server_mem, rfl⟩ :=
      getServerInNextStride_unfiltered returned temp.stride_pos temp.remains
    cases taken : call.accepts server.id with
    | true =>
      refine ⟨.ok server.id,
        { tls with remainServer := walked.remainServer, position := walked.position },
        settles.ends ?_, .inl ⟨server, server_mem, rfl, taken⟩⟩
      intro fuel returned
      rw [selectLoop, returned]
      simp [taken]
    | false =>
      have tried := tried.cons server_mem kept taken
      cases remain with
      | zero =>
        refine ⟨.error .ehostdown, tls, settles.ends ?_, .inr ⟨rfl, fun _ => tried.all_refused⟩⟩
        intro fuel returned
        rw [selectLoop, returned]
        simp only [taken]
        rfl
      | succ remain =>
        have lighter : remainWeight - server.weight.toUInt64 =
            .ofNat (totalWeight (s.untried (server.id :: filter))) := by
          rw [weight_eq, totalWeight_perm (s.untried_perm server_mem kept),
            totalWeight_cons, UInt64.ofNat_add, UInt64.ofNat_uInt32ToNat]
          exact add_sub_cancel_left _ _
        obtain ⟨other, mem, other_untried⟩ := tried.exists_untried
        have nonzero : remainWeight - server.weight.toUInt64 ≠ 0 := by
          rw [lighter]
          refine noZero _ filter_sublist (ne_nil_of_mem (a := other) ?_)
          exact mem_filter.mpr ⟨mem, by simpa using other_untried⟩
        obtain ⟨stride, found, stride_pos⟩ :=
          getStride_of_ne nonzero (remain + 1)
        have again : Adapted s
            { walked with
              stride := stride
              position := tls.position
              remainServer := tls.remainServer } :=
          ⟨stride_pos, adapted.inside, adapted.remains⟩
        obtain ⟨result, after, rest, answers⟩ := ih tried lighter again
        refine ⟨result, after, settles.goOn ?_ rest, answers⟩
        intro fuel returned
        rw [selectLoop, returned]
        simp only [taken, s.lookup server_mem, found]
        rfl

theorem selectLoop_after {fuel remain : Nat} {filter : List SocketId}
    {remainWeight : UInt64} {tlsTemp after : TLS} {result : Except Errno SocketId}
    (position_eq : tlsTemp.position = tls.position)
    (remain_eq : tlsTemp.remainServer = tls.remainServer)
    (chosen : selectLoop fuel call s tls remain filter remainWeight tlsTemp =
      some (result, after)) :
    after = tls ∨ ∃ filter start id walked, start.position = tls.position ∧
      start.remainServer = tls.remainServer ∧
      getServerInNextStride fuel s.serverList filter start = some (id, walked) ∧
      after = { tls with remainServer := walked.remainServer, position := walked.position } := by
  fun_induction selectLoop fuel call s tls remain filter remainWeight tlsTemp with
  | case1 => exact .inl (Prod.mk.inj (Option.some.inj chosen)).2.symm
  | case2 => simp at chosen
  | case3 remain filter remainWeight start id walked returned taken =>
    exact .inr ⟨filter, start, id, walked, position_eq, remain_eq, returned,
      (Prod.mk.inj (Option.some.inj chosen)).2.symm⟩
  | case4 => exact .inl (Prod.mk.inj (Option.some.inj chosen)).2.symm
  | case5 | case6 => simp at chosen
  | case7 remain filter remainWeight start id walked returned refused more server found
      lighter stride strides ih => exact ih rfl rfl chosen

end Round

section Run

variable {Addr : Type*} {call : SelectCall Addr} {s : Servers} {tls after : TLS}

/-- The thread knows the list, and its stride is new unless it knew the list before. -/
theorem refresh_inv (refreshed : refresh call s tls = some after) :
    after.weightSum = s.weightSum ∧ after.serversNum = s.serverList.length ∧
      (getStride s.weightSum.toNat s.serverList.length = some after.stride ∨
        tls.weightSum = s.weightSum ∧ tls.serversNum = s.serverList.length ∧
          after.stride = tls.stride) := by
  obtain ⟨strided, prepared, rfl⟩ := Option.map_eq_some_iff.mp refreshed
  -- the second half of the preparation changes the position and the remainder only
  suffices kept : strided.weightSum = s.weightSum ∧ strided.serversNum = s.serverList.length ∧
      (getStride s.weightSum.toNat s.serverList.length = some strided.stride ∨
        tls.weightSum = s.weightSum ∧ tls.serversNum = s.serverList.length ∧
          strided.stride = tls.stride) by
    dsimp only
    split <;> exact kept
  simp only [TLS.isNeededCalculateNewStride] at prepared
  split at prepared
  · next unchanged =>
    obtain rfl := Option.some.inj prepared
    split at unchanged
    · simp at unchanged
    · next same =>
      obtain ⟨-, rfl⟩ := Prod.mk.inj unchanged
      obtain ⟨weight_eq, num_eq⟩ := not_or.mp same
      exact ⟨(not_not.mp weight_eq).symm, (not_not.mp num_eq).symm,
        .inr ⟨(not_not.mp weight_eq).symm, (not_not.mp num_eq).symm, rfl⟩⟩
  · next changed =>
    split at changed
    · obtain ⟨-, rfl⟩ := Prod.mk.inj changed
      obtain ⟨stride, found, rfl⟩ := Option.map_eq_some_iff.mp prepared
      exact ⟨rfl, rfl, .inl found⟩
    · simp at changed

theorem refresh_place (ne : s.serverList ≠ []) (refreshed : refresh call s tls = some after) :
    after.position < s.serverList.length ∧
      (tls.remainServer.weight = 0 → after.remainServer.weight = 0) := by
  have inside : ∀ place, place % s.serverList.length < s.serverList.length :=
    fun _ => mod_lt _ (length_pos_of_ne_nil ne)
  obtain ⟨strided, prepared, rfl⟩ := Option.map_eq_some_iff.mp refreshed
  have remain_eq : strided.remainServer = tls.remainServer := by
    simp only [TLS.isNeededCalculateNewStride] at prepared
    split at prepared
    · next same =>
      split at same <;> simp_all
    · next changed =>
      obtain ⟨stride, -, rfl⟩ := Option.map_eq_some_iff.mp prepared
      split at changed <;> obtain ⟨-, rfl⟩ := Prod.mk.inj changed <;> rfl
  dsimp only
  split
  · exact ⟨inside _, fun _ => rfl⟩
  · exact ⟨inside _, fun nothing => (congrArg Server.weight remain_eq).trans nothing⟩

theorem refresh_stride_pos (ne : s.serverList ≠ []) (strided : tls.Strided)
    (refreshed : refresh call s tls = some after) : 0 < after.stride := by
  obtain ⟨-, -, found | ⟨-, num_eq, stride_eq⟩⟩ := refresh_inv refreshed
  · exact getStride_pos found
  · rw [stride_eq]
    refine strided ?_
    rw [num_eq]
    exact (length_pos_of_ne_nil ne).ne'

theorem selectServer_strided {fuel : Nat} {result : Except Errno SocketId} (strided : tls.Strided)
    (chosen : selectServer fuel call s tls = some (result, after)) : after.Strided := by
  rw [selectServer] at chosen
  split at chosen
  · obtain ⟨-, rfl⟩ := Prod.mk.inj (Option.some.inj chosen)
    exact strided
  · next ne =>
    split at chosen
    · simp at chosen
    · next refreshed returned =>
      have stride_pos := refresh_stride_pos ne strided returned
      rcases selectLoop_after rfl rfl chosen with rfl | ⟨_, _, _, _, -, -, -, rfl⟩
      · exact fun _ => stride_pos
      · exact fun _ => stride_pos

theorem Reachable.strided {defaultWeightOfWlb : Int32} {dbServers : DoublyBuffered Servers}
    (reachable : Reachable Addr defaultWeightOfWlb dbServers tls) : tls.Strided := by
  induction reachable with
  | start => exact fun nonzero => absurd rfl nonzero
  | addServer _ _ ih => exact ih
  | removeServer _ _ ih => exact ih
  | addServersInBatch _ _ ih => exact ih
  | removeServersInBatch _ _ ih => exact ih
  | selectServer _ _ chosen ih => exact selectServer_strided ih chosen

theorem selectServer_settles (call : SelectCall Addr) (ne : s.serverList ≠ [])
    (noZero : s.NoZeroWeight) (strided : tls.Strided) :
    ∃ result after, SettlesOn (selectServer · call s tls) (result, after) ∧
      Answers call s result := by
  obtain ⟨start, refreshed, adapted⟩ := refresh_adapted call ne
    (noZero.weightSum_ne ne) strided
  have weight_eq : s.weightSum = .ofNat (totalWeight (s.untried [])) := by
    rw [Servers.untried, filter_eq_self.mpr (by simp)]
    exact s.weightSum_eq
  simp only [selectServer, if_neg ne, refreshed]
  exact selectLoop_settles noZero adapted (Tried.start call s) weight_eq adapted

/-- A selection terminates.  It returns an available server that is not excluded if the list has
one, and otherwise finds all hosts down.  The sockets of the listed servers are in different slots
of the pool, as `SocketMapInsert` gives them out. -/
theorem selectServer_finds_accepted {defaultWeightOfWlb : Int32}
    {dbServers : DoublyBuffered Servers}
    (reachable : Reachable Addr defaultWeightOfWlb dbServers tls)
    (slots : (dbServers.foreground.serverList.map fun server => slotOfSocketId server.id).Nodup)
    (call : SelectCall Addr) :
    ∃ result after, SettlesOn (selectServer · call dbServers.foreground tls) (result, after) ∧
      (∀ id, result = .ok id → id ∈ dbServers.foreground.serverList.map Server.id ∧
          call.input.isExcluded id = false ∧ call.sockets.available id = true) ∧
      (dbServers.foreground.serverList ≠ [] →
        ((∃ id, result = .ok id) ↔ ∃ server ∈ dbServers.foreground.serverList,
          call.input.isExcluded server.id = false ∧ call.sockets.available server.id = true) ∧
        ((¬∃ id, result = .ok id) → result = .error .ehostdown)) := by
  have noZero := Servers.noZeroWeight_of_lt (sum_weights_lt Server.weight slots)
  have accepts_iff : ∀ id, call.accepts id = true ↔
      call.input.isExcluded id = false ∧ call.sockets.available id = true := by
    intro id
    simp [SelectCall.accepts]
  simp only [← accepts_iff]
  rcases eq_or_ne dbServers.foreground.serverList [] with empty | nonempty
  · refine ⟨.error .enodata, tls, .of_forall fun fuel => ?_, ?_, absurd empty⟩
    · rw [selectServer, if_pos empty]
    · rintro id ⟨⟩
  · obtain ⟨result, after, settles, answers⟩ :=
      selectServer_settles call nonempty noZero reachable.strided
    refine ⟨result, after, settles, ?_⟩
    rcases answers with ⟨server, server_mem, rfl, accepted⟩ | ⟨rfl, refused⟩
    · refine ⟨?_, fun _ => ⟨⟨?_, ?_⟩, ?_⟩⟩
      · rintro id ⟨⟩
        exact ⟨mem_map_of_mem server_mem, accepted⟩
      · exact fun _ => ⟨server, server_mem, accepted⟩
      · exact fun _ => ⟨server.id, rfl⟩
      · exact fun none_found => absurd ⟨server.id, rfl⟩ none_found
    · refine ⟨?_, fun _ => ⟨⟨?_, ?_⟩, fun _ => rfl⟩⟩
      · rintro id ⟨⟩
      · rintro ⟨id, ⟨⟩⟩
      · rintro ⟨server, server_mem, accepted⟩
        simp [refused server server_mem] at accepted

/-- Two servers on available sockets, one of which is excluded. -/
theorem selectServer_finds_accepted_second : ∃ after, SettlesOn
      (selectServer · ⟨fun _ => some ⟨0, (), false, 0⟩, ⟨0, false, false, 0, some [7]⟩, 0⟩
        (addServersInBatch 1 ⟨.new, .new⟩ [⟨7, "2"⟩, ⟨8, "3"⟩]).2.foreground {})
      (Except.ok 8, after) := by
  have list_eq : (addServersInBatch 1 ⟨.new, .new⟩
      [⟨7, "2"⟩, ⟨8, "3"⟩]).2.foreground.serverList = [⟨7, 2⟩, ⟨8, 3⟩] := by
    decide +kernel
  obtain ⟨result, after, settles, sound, complete⟩ := selectServer_finds_accepted
    (.addServersInBatch [⟨7, "2"⟩, ⟨8, "3"⟩] .start) (by rw [list_eq]; decide)
    ⟨fun _ => some ⟨0, (), false, 0⟩, ⟨0, false, false, 0, some [7]⟩, 0⟩
  obtain ⟨id, rfl⟩ := (complete (by simp [list_eq])).1.mpr
    ⟨⟨8, 3⟩, by simp [list_eq], by decide, by decide⟩
  obtain ⟨listed, allowed, -⟩ := sound id rfl
  rw [list_eq] at listed
  obtain rfl | rfl : id = 7 ∨ id = 8 := by simpa using listed
  · exact absurd allowed (by decide)
  · exact ⟨after, settles⟩

end Run

end McBrpc.WeightedRoundRobin
