import McBrpc.Library.CyclicStride
import McBrpc.Policy.WeightedSelection

/-!
# Fairness of the weighted round robin balancer

While all servers are available and none is excluded, every selection of a thread goes on by one
stride, so that as many selections as the sum of the weights meet every place of the circle once.
-/

namespace McBrpc.WeightedRoundRobin

open List Nat

section Places

variable {serverList : List Server} {tls after : TLS}

/-- The circle of the servers, on which a server has as many places as its weight. -/
def ring (serverList : List Server) : List SocketId :=
  circle Server.id (·.weight.toNat) serverList

theorem length_ring (serverList : List Server) :
    (ring serverList).length = totalWeight serverList :=
  length_circle _ _ _

/-- The first place of the server at a position. -/
def offset (serverList : List Server) (position : Nat) : Nat :=
  totalWeight (serverList.take position)

variable {server : Server} {stride : Nat} {id : SocketId}

theorem getElem?_ring {position : Nat} (here : serverList[position]? = some server) {place : Nat}
    (behind : offset serverList position ≤ place)
    (before : place < offset serverList position + server.weight.toNat) :
    (ring serverList)[place]? = some server.id := by
  obtain ⟨inner, rfl⟩ := Nat.exists_eq_add_of_le behind
  have within : inner < server.weight.toNat := by omega
  exact getElem?_circle here within

theorem offset_add_le {place : Nat} (here : serverList[place]? = some server) :
    offset serverList place + server.weight.toNat ≤ totalWeight serverList := by
  obtain ⟨inside, rfl⟩ := List.getElem?_eq_some_iff.mp here
  have split := totalWeight_append (serverList.take (place + 1)) (serverList.drop (place + 1))
  rw [take_append_drop, take_succ_eq_append_getElem inside, totalWeight_append,
    totalWeight_cons, totalWeight_nil] at split
  rw [offset]
  omega

theorem offset_advance (here : serverList[tls.position]? = some server) :
    offset serverList (tls.advance serverList.length).position ≡
      offset serverList tls.position + server.weight.toNat [MOD totalWeight serverList] := by
  obtain ⟨inside, rfl⟩ := List.getElem?_eq_some_iff.mp here
  have next : offset serverList tls.position + (serverList[tls.position]).weight.toNat =
      totalWeight (serverList.take (tls.position + 1)) := by
    rw [take_succ_eq_append_getElem inside, totalWeight_append, totalWeight_cons,
      totalWeight_nil, add_zero, offset]
  rw [next, TLS.advance]
  rcases lt_or_ge (tls.position + 1) serverList.length with more | last
  · rw [mod_eq_of_lt more]
    rfl
  · have same : tls.position + 1 = serverList.length := by omega
    rw [same, mod_self, take_length, offset, take_zero, totalWeight_nil]
    exact (mod_self _).symm

/-- The place on the circle at which a thread stands. -/
def StandsAt (serverList : List Server) (tls : TLS) (place : Nat) : Prop :=
  ∃ server, serverList[tls.position]? = some server ∧
    (tls.remainServer.weight = 0 ∧ place = offset serverList tls.position ∨
      tls.remainServer.id = server.id ∧ 0 < tls.remainServer.weight ∧
        tls.remainServer.weight < server.weight ∧
        place + tls.remainServer.weight.toNat =
          offset serverList tls.position + server.weight.toNat)

theorem Seated.standsAt (seated : Seated serverList tls) :
    ∃ place, StandsAt serverList tls place := by
  obtain ⟨server, here, remains⟩ := seated
  rcases eq_or_ne tls.remainServer.weight 0 with nothing | something
  · exact ⟨_, server, here, .inl ⟨nothing, rfl⟩⟩
  · obtain ⟨same, less⟩ := remains.resolve_left something
    have less' := UInt32.lt_iff_toNat_lt.mp less
    exact ⟨offset serverList tls.position + server.weight.toNat - tls.remainServer.weight.toNat,
      server, here, .inr ⟨same, UInt32.pos_iff_ne_zero.mpr something, less, by omega⟩⟩

/-- What a walk over a number of places from a place ends with: the name of the last place it
covers, if any, and the place behind it. -/
structure Covers (serverList : List Server) (start stride : Nat) (id : SocketId) (after : TLS) :
    Prop where
  stands : ∃ place, StandsAt serverList after place ∧
    place ≡ start + stride [MOD totalWeight serverList]
  last : 0 < stride → (ring serverList)[(start + stride - 1) % totalWeight serverList]? = some id

theorem Covers.within (here : serverList[tls.position]? = some server) {weight : UInt32}
    {left start : Nat} (left_eq : weight.toNat = left)
    (ends : start + stride + left = offset serverList tls.position + server.weight.toNat)
    (something : 0 < left) (less : left < server.weight.toNat) :
    Covers serverList start stride server.id
      { tls with remainServer := ⟨server.id, weight⟩ } where
  stands := by
    refine ⟨start + stride, ⟨server, here, .inr ⟨rfl, ?_, ?_, ?_⟩⟩, Nat.ModEq.refl _⟩
    · exact UInt32.lt_iff_toNat_lt.mpr (left_eq ▸ something)
    · exact UInt32.lt_iff_toNat_lt.mpr (left_eq ▸ less)
    · exact left_eq ▸ ends
  last positive := by
    have total := offset_add_le here
    rw [mod_eq_of_lt (by omega)]
    exact getElem?_ring here (by omega) (by omega)

theorem Covers.next (here : serverList[tls.position]? = some server) {start rest : Nat}
    (begins : offset serverList tls.position ≤ start)
    (ends : start + rest = offset serverList tls.position + server.weight.toNat)
    (enough : rest ≤ stride)
    (further : Covers serverList (offset serverList (tls.advance serverList.length).position)
      (stride - rest) id after) (used_up : stride = rest → id = server.id)
    : Covers serverList start stride id after := by
  have congruent := ends ▸ offset_advance here
  constructor
  · obtain ⟨place, stands, place_eq⟩ := further.stands
    refine ⟨place, stands, place_eq.trans ?_⟩
    have total : start + stride = start + rest + (stride - rest) := by omega
    rw [total]
    exact congruent.add_right _
  · intro pos
    rcases eq_or_lt_of_le enough with same | more
    · obtain rfl := used_up same.symm
      have total := offset_add_le here
      rw [mod_eq_of_lt (by omega)]
      exact getElem?_ring here (by omega) (by omega)
    · rw [← further.last (by omega)]
      have total : start + stride - 1 = start + rest + (stride - rest - 1) := by omega
      have total' : offset serverList (tls.advance serverList.length).position +
          (stride - rest) - 1 = offset serverList (tls.advance serverList.length).position +
            (stride - rest - 1) := by omega
      rw [total, total']
      exact congrArg ((ring serverList)[·]?) (congruent.add_right _).symm

theorem useUpStride_covers {fuel : Nat} {final : SocketId}
    (walked : useUpStride serverList [] fuel stride final tls = some (id, after))
    (inside : tls.position < serverList.length) (nothing : tls.remainServer.weight = 0) :
    Covers serverList (offset serverList tls.position) stride id after := by
  generalize filter_eq : ([] : List SocketId) = filter at walked
  fun_induction useUpStride serverList filter fuel stride final tls with
  | case1 fuel id tls =>
    obtain ⟨-, rfl⟩ := Prod.mk.inj (Option.some.inj walked)
    refine ⟨⟨_, ⟨_, getElem?_eq_getElem inside, .inl ⟨nothing, rfl⟩⟩, rfl⟩, ?_⟩
    intro pos
    exact absurd pos (lt_irrefl 0)
  | case2 | case3 => simp at walked
  | case4 fuel stride _ tls server here filtered ih => simp [← filter_eq] at filtered
  | case5 fuel stride _ tls server here kept wide =>
    obtain ⟨rfl, rfl⟩ := Prod.mk.inj (Option.some.inj walked)
    have rest : (server.weight - UInt32.ofNat (stride + 1)).toNat =
        server.weight.toNat - (stride + 1) := toNat_sub_ofNat (by omega)
    exact Covers.within here rest (by omega) (by omega) (by omega)
  | case6 fuel stride _ tls server here kept wide ih =>
    refine Covers.next here le_rfl rfl (by omega)
      (ih (TLS.advance_inside inside) nothing walked) ?_
    intro same
    have none_left : stride + 1 - server.weight.toNat = 0 := by omega
    rw [none_left, useUpStride_zero] at walked
    exact (Prod.mk.inj (Option.some.inj walked)).1.symm

theorem getServerInNextStride_covers {fuel place : Nat}
    (walked : getServerInNextStride fuel serverList [] tls = some (id, after))
    (stands : StandsAt serverList tls place) : Covers serverList place tls.stride id after := by
  obtain ⟨server, here, stands⟩ := stands
  have inside : tls.position < serverList.length := (List.getElem?_eq_some_iff.mp here).1
  simp only [getServerInNextStride, not_mem_nil, if_false] at walked
  split at walked
  · next some_remains =>
    obtain ⟨same, -, less, place_eq⟩ := stands.resolve_left
      (by rintro ⟨zero, -⟩; simp [zero] at some_remains)
    have less := UInt32.lt_iff_toNat_lt.mp less
    split at walked
    · obtain ⟨rfl, rfl⟩ := Prod.mk.inj (Option.some.inj walked)
      have rest : (tls.remainServer.weight - UInt32.ofNat tls.stride).toNat =
          tls.remainServer.weight.toNat - tls.stride := toNat_sub_ofNat (by omega)
      rw [same]
      exact Covers.within here rest (by omega) (by omega) (by omega)
    · have further := useUpStride_covers walked (TLS.advance_inside inside) rfl
      refine Covers.next here (by omega) place_eq (by omega) further ?_
      intro used_up
      rw [used_up, Nat.sub_self, useUpStride_zero] at walked
      rw [← same]
      exact (Prod.mk.inj (Option.some.inj walked)).1.symm
  · next none_remains =>
    obtain ⟨nothing, rfl⟩ := stands.resolve_right fun remains => none_remains remains.2.1
    exact useUpStride_covers walked inside nothing

end Places

variable {Addr : Type*} {call : SelectCall Addr} {s : Servers} {tls after : TLS}

/-- The thread-local states that selections under one list produce. -/
inductive SelectedUnder (Addr : Type*) (s : Servers) : TLS → Prop
  | start : SelectedUnder Addr s {}
  | selectServer {tls fuel result after} (call : SelectCall Addr)
      (earlier : SelectedUnder Addr s tls)
      (selected : selectServer fuel call s tls = some (result, after)) :
      SelectedUnder Addr s after

def selectServers (fuel : Nat) (s : Servers) :
    List (SelectCall Addr) → TLS → Option (List (Except Errno SocketId) × TLS)
  | [], tls => some ([], tls)
  | call :: calls, tls =>
    match selectServer fuel call s tls with
    | none => none
    | some (result, tls) =>
      match selectServers fuel s calls tls with
      | none => none
      | some (results, tls) => some (result :: results, tls)

/-- The thread knows the list and stands at a place on its circle. -/
structure Walking (s : Servers) (tls : TLS) : Prop where
  weightSum_eq : tls.weightSum = s.weightSum
  serversNum_eq : tls.serversNum = s.serverList.length
  stride_eq : getStride s.weightSum.toNat s.serverList.length = some tls.stride
  seated : Seated s.serverList tls

theorem refresh_walking (walking : Walking s tls) : refresh call s tls = some tls := by
  obtain ⟨server, here, remains⟩ := walking.seated
  have inside := (List.getElem?_eq_some_iff.mp here).1
  have known : tls.isNeededCalculateNewStride s.weightSum s.serverList.length = (false, tls) := by
    rw [TLS.isNeededCalculateNewStride, walking.weightSum_eq, walking.serversNum_eq, if_neg]
    simp
  have kept : ¬(tls.remainServer.weight > 0 ∧
      s.serverList[tls.position]?.map Server.id ≠ some tls.remainServer.id) := by
    rintro ⟨something, ne⟩
    rcases remains with nothing | ⟨same, -⟩
    · simp [nothing] at something
    · exact ne (by rw [here, same]; rfl)
  rw [refresh, known]
  simp only [Option.map_some, mod_eq_of_lt inside, if_neg kept]

theorem walking_of_refresh (ne : s.serverList ≠ []) (known : tls = {} ∨ Walking s tls)
    (refreshed : refresh call s tls = some after) : Walking s after := by
  rcases known with rfl | walking
  · have length_pos : 0 < s.serverList.length := length_pos_of_ne_nil ne
    obtain ⟨weight_eq, num_eq, found | ⟨-, zero, -⟩⟩ := refresh_inv refreshed
    · refine ⟨weight_eq, num_eq, found, ?_⟩
      obtain ⟨inside, nothing⟩ := refresh_place ne refreshed
      exact ⟨_, getElem?_eq_getElem inside, .inl (nothing rfl)⟩
    · exact absurd zero length_pos.ne
  · obtain rfl := Option.some.inj ((refresh_walking walking).symm.trans refreshed)
    exact walking

theorem SelectedUnder.walking (ne : s.serverList ≠ []) (reached : SelectedUnder Addr s tls) :
    tls = {} ∨ Walking s tls := by
  induction reached with
  | start => exact .inl rfl
  | selectServer call _ chosen known =>
    right
    rw [WeightedRoundRobin.selectServer, if_neg ne] at chosen
    split at chosen
    · simp at chosen
    · next refreshed returned =>
      have walking := walking_of_refresh ne known returned
      obtain rfl | ⟨filter, start, id, walked, position_eq, remain_eq, stepped, rfl⟩ :=
        selectLoop_after rfl rfl chosen
      · exact walking
      · have seated : Seated s.serverList start := by
          rw [Seated, position_eq, remain_eq]
          exact walking.seated
        have seated := getServerInNextStride_seated stepped seated
        exact ⟨walking.weightSum_eq, walking.serversNum_eq, walking.stride_eq, seated⟩

theorem selectServer_covers (walking : Walking s tls)
    (taken : ∀ server ∈ s.serverList, call.accepts server.id) {place : Nat}
    (stands : StandsAt s.serverList tls place) :
    ∃ id after, SettlesOn (selectServer · call s tls) (.ok id, after) ∧ Walking s after ∧
      after.stride = tls.stride ∧ Covers s.serverList place tls.stride id after := by
  obtain ⟨server, here, remains⟩ := walking.seated
  have server_mem := mem_of_getElem? here
  have inside : tls.position < s.serverList.length := (List.getElem?_eq_some_iff.mp here).1
  obtain ⟨⟨id, walked⟩, settles⟩ :=
    getServerInNextStride_settles s.serverList_weight_pos here not_mem_nil inside
  obtain ⟨fuel, stepped⟩ := settles.returns
  have listed : tls.remainServer.weight = 0 ∨
      ∃ server ∈ s.serverList, server.id = tls.remainServer.id :=
    remains.imp_right fun remains => ⟨server, server_mem, remains.1.symm⟩
  obtain ⟨-, found, found_mem, rfl⟩ :=
    getServerInNextStride_unfiltered stepped (getStride_pos walking.stride_eq) listed
  have covers := getServerInNextStride_covers stepped stands
  have seated := getServerInNextStride_seated stepped walking.seated
  refine ⟨found.id, { tls with remainServer := walked.remainServer, position := walked.position },
    settles.ends ?_, ⟨walking.weightSum_eq, walking.serversNum_eq, walking.stride_eq, seated⟩, rfl,
    ⟨covers.stands, covers.last⟩⟩
  intro fuel stepped
  obtain ⟨others, length_eq⟩ := exists_eq_succ_of_ne_zero (ne_zero_of_lt inside)
  rw [selectServer, if_neg (ne_nil_of_mem server_mem), refresh_walking walking]
  simp [length_eq, selectLoop, stepped, taken found found_mem]

theorem selectServers_visits (walking : Walking s tls) {calls : List (SelectCall Addr)}
    (taken : ∀ call ∈ calls, ∀ server ∈ s.serverList, call.accepts server.id) {place : Nat}
    (stands : StandsAt s.serverList tls place) :
    ∃ (ids : List SocketId) (after : TLS),
      SettlesOn (selectServers · s calls tls) (ids.map .ok, after) ∧
      ids.map some = (List.range calls.length).map fun count =>
        (ring s.serverList)[(place + tls.stride - 1 + count * tls.stride) %
          totalWeight s.serverList]? := by
  induction calls generalizing tls place with
  | nil => exact ⟨[], tls, .of_forall fun _ => rfl, rfl⟩
  | cons call calls ih =>
    obtain ⟨id, next, settles, walking_next, stride_eq, covers⟩ :=
      selectServer_covers walking (taken call mem_cons_self) stands
    obtain ⟨next_place, stands_next, congruent⟩ := covers.stands
    obtain ⟨ids, after, rest, visits⟩ := ih walking_next
      (fun other mem => taken other (mem_cons_of_mem _ mem)) stands_next
    have pos : 0 < tls.stride := getStride_pos walking.stride_eq
    refine ⟨id :: ids, after, settles.both rest ?_, ?_⟩
    · intro fuel chosen selected_rest
      simp [selectServers, chosen, selected_rest]
    · rw [map_cons, length_cons, range_succ_eq_map, map_cons, map_map,
        zero_mul, add_zero, covers.last pos, visits]
      refine congrArg (some id :: ·) (map_congr_left fun count _ => ?_)
      have shift : next_place + next.stride - 1 + count * next.stride ≡
          place + tls.stride - 1 + (count + 1) * tls.stride [MOD totalWeight s.serverList] := by
        rw [stride_eq]
        have left_eq : next_place + tls.stride - 1 + count * tls.stride =
            next_place + (tls.stride - 1 + count * tls.stride) := by omega
        have right_eq : place + tls.stride - 1 + (count + 1) * tls.stride =
            place + tls.stride + (tls.stride - 1 + count * tls.stride) := by
          rw [succ_mul]
          omega
        rw [left_eq, right_eq]
        exact congruent.add_right _
      exact congrArg ((ring s.serverList)[·]?) shift

theorem SelectedUnder.strided (ne : s.serverList ≠ []) (reached : SelectedUnder Addr s tls) :
    tls.Strided := by
  obtain rfl | walking := reached.walking ne
  · exact fun nonzero => absurd rfl nonzero
  · exact fun _ => getStride_pos walking.stride_eq

/-- As many selections as the sum of the weights select every server as often as its weight, and
the stride has no common divisor with the sum. -/
theorem selectServers_fair (nonempty : s.serverList ≠ []) (reached : SelectedUnder Addr s tls)
    {calls : List (SelectCall Addr)} (all_places : calls.length = totalWeight s.serverList)
    (accepted : ∀ call ∈ calls, ∀ server ∈ s.serverList,
      call.input.isExcluded server.id = false ∧ call.sockets.available server.id = true) :
    (∃ stride, getStride s.weightSum.toNat s.serverList.length = some stride ∧
      stride.Coprime (totalWeight s.serverList)) ∧
    ∃ (ids : List SocketId) (after : TLS),
      SettlesOn (selectServers · s calls tls) (ids.map .ok, after) ∧
      ∀ server ∈ s.serverList, ids.count server.id = server.weight.toNat := by
  have total_pos : 0 < totalWeight s.serverList :=
    Servers.totalWeight_pos s.serverList_weight_pos (List.Sublist.refl _) nonempty
  obtain ⟨call, rest, rfl⟩ := exists_cons_of_length_pos (all_places ▸ total_pos)
  have fits := sum_weights_lt Server.weight <| Sockets.nodup_slots_of_available s.nodup_ids
    fun server server_mem => (accepted call mem_cons_self server server_mem).2
  have sum_eq : s.weightSum.toNat = totalWeight s.serverList := by
    rw [s.weightSum_eq]
    exact UInt64.toNat_ofNat_of_lt' fits
  -- the first selection prepares the thread, the others find it prepared
  have nonzero := (Servers.noZeroWeight_of_lt fits).weightSum_ne nonempty
  obtain ⟨start, refreshed, -⟩ := refresh_adapted call nonempty nonzero (reached.strided nonempty)
  have walking := walking_of_refresh nonempty (reached.walking nonempty) refreshed
  have prepared : ∀ fuel,
      selectServers fuel s (call :: rest) tls = selectServers fuel s (call :: rest) start := by
    intro fuel
    rw [selectServers, selectServers, selectServer, selectServer, if_neg nonempty,
      if_neg nonempty, refreshed, refresh_walking walking]
  obtain ⟨stride, found, -, coprime⟩ :=
    getStride_spec total_pos fits s.serverList.length
  obtain rfl : start.stride = stride :=
    Option.some.inj (walking.stride_eq.symm.trans (sum_eq ▸ found))
  refine ⟨⟨start.stride, walking.stride_eq, coprime⟩, ?_⟩
  obtain ⟨place, stands⟩ := walking.seated.standsAt
  have accepts : ∀ other ∈ call :: rest, ∀ server ∈ s.serverList, other.accepts server.id := by
    intro other other_mem server server_mem
    obtain ⟨not_excluded, available⟩ := accepted other other_mem server server_mem
    rw [SelectCall.accepts, not_excluded, available]
    rfl
  obtain ⟨ids, after, settles, visits⟩ := selectServers_visits walking accepts stands
  refine ⟨ids, after, ?_, ?_⟩
  · simp only [prepared]
    exact settles
  · intro server server_mem
    have perm : (ids.map some).Perm ((ring s.serverList).map some) := by
      rw [visits, all_places, ← length_ring]
      exact visits_perm (by rwa [length_ring]) _
    have perm : ids.Perm (ring s.serverList) :=
      (map_perm_map_iff (Option.some_injective _)).mp perm
    rw [perm.count_eq]
    exact count_circle s.nodup_ids server_mem

/-- A selection with two available servers and another one excluded. -/
def pairCall : SelectCall Unit where
  sockets _ := some ⟨0, (), false, 0⟩
  input := ⟨0, false, false, 0, some [7]⟩
  random := 0

/-- Three selections between two servers of the weights one and two. -/
theorem selectServers_fair_pair : ∃ (ids : List SocketId) (after : TLS),
      SettlesOn (selectServers · (batchAdd 0 .new [⟨1, "1"⟩, ⟨2, "2"⟩]).2
        (List.replicate 3 pairCall) {}) (ids.map .ok, after) ∧
      ids.count 1 = 1 ∧ ids.count 2 = 2 := by
  have list_eq : (batchAdd 0 .new [⟨1, "1"⟩, ⟨2, "2"⟩]).2.serverList = [⟨1, 1⟩, ⟨2, 2⟩] := by
    decide +kernel
  have nonempty : (batchAdd 0 .new [⟨1, "1"⟩, ⟨2, "2"⟩]).2.serverList ≠ [] := by simp [list_eq]
  have all_places : (List.replicate 3 pairCall).length =
      totalWeight (batchAdd 0 .new [⟨1, "1"⟩, ⟨2, "2"⟩]).2.serverList := by
    rfl
  obtain ⟨-, ids, after, settles, fair⟩ := selectServers_fair nonempty .start all_places (by
    intro call call_mem server server_mem
    obtain rfl := eq_of_mem_replicate call_mem
    fin_cases server_mem <;> decide)
  exact ⟨ids, after, settles, fair ⟨1, 1⟩ (by simp [list_eq]), fair ⟨2, 2⟩ (by simp [list_eq])⟩

end McBrpc.WeightedRoundRobin
