import McBrpc.Library.CyclicStride
import McBrpc.Policy.ConsistentHashing
import McBrpc.Policy.RoundRobin

/-!
# The last chance

Round robin and consistent hashing pass over excluded servers except at the last probe, which is
tied to a position and not to the last server that could be used.
-/

namespace McBrpc

open List ConsistentHashing RoundRobin Nat

variable {Addr : Type*}

/-- What a selection among listed servers should answer: a server if one is available, and an
excluded one only if every available server is excluded. -/
def TakesLastChance (sockets : Sockets Addr) (input : SelectIn) (listed : List SocketId)
    (result : Except Errno SocketId) : Prop :=
  ((∃ id ∈ listed, sockets.available id) → ∃ id, result = .ok id) ∧
    ∀ id, result = .ok id → input.isExcluded id →
      ∀ other ∈ listed, sockets.available other → input.isExcluded other

/-- Some probe meets an available server that is not excluded, if there is one. -/
def MeetsUsable (sockets : Sockets Addr) (input : SelectIn) (listed probes : List SocketId) :
    Prop :=
  (∃ id ∈ listed, sockets.available id ∧ input.isExcluded id = false) →
    ∃ id ∈ probes, sockets.available id ∧ input.isExcluded id = false

/-- If all available servers are excluded, the last probe meets one of them. -/
def EndsAvailable (sockets : Sockets Addr) (input : SelectIn) (listed probes : List SocketId) :
    Prop :=
  (∃ id ∈ listed, sockets.available id) →
    (∀ id ∈ listed, sockets.available id → input.isExcluded id) →
      ∃ id ∈ probes.getLast?, sockets.available id

/-- The loop that both balancers have, over the servers of the probes. -/
def probeIds (sockets : Sockets Addr) (input : SelectIn) : List SocketId → Except Errno SocketId
  | [] => .error .ehostdown
  | id :: rest =>
    if (rest = [] ∨ input.isExcluded id = false) ∧ sockets.available id then .ok id
    else probeIds sockets input rest

section Probes

variable {sockets : Sockets Addr} {input : SelectIn} {listed probes : List SocketId}

theorem probeIds_usable
    (meets : ∃ id ∈ probes, sockets.available id ∧ input.isExcluded id = false) :
    ∃ id, probeIds sockets input probes = .ok id ∧ input.isExcluded id = false := by
  induction probes with
  | nil => simp at meets
  | cons id rest ih =>
    obtain ⟨usable, usable_mem, available, not_excluded⟩ := meets
    rw [probeIds]
    by_cases here : input.isExcluded id = false ∧ sockets.available id
    · rw [if_pos ⟨.inr here.1, here.2⟩]
      exact ⟨id, rfl, here.1⟩
    · have later : usable ∈ rest := by
        refine (mem_cons.mp usable_mem).resolve_left ?_
        rintro rfl
        exact here ⟨not_excluded, available⟩
      have more : rest ≠ [] := ne_nil_of_mem later
      rw [if_neg (by simp only [more, false_or]; exact here)]
      exact ih ⟨usable, later, available, not_excluded⟩

theorem probeIds_unusable
    (misses : ¬∃ id ∈ probes, sockets.available id ∧ input.isExcluded id = false) :
    (∃ id ∈ probes.getLast?, probeIds sockets input probes = .ok id ∧ sockets.available id) ∨
      probeIds sockets input probes = .error .ehostdown ∧
        ∀ id ∈ probes.getLast?, sockets.available id = false := by
  induction probes with
  | nil => exact .inr ⟨rfl, by simp⟩
  | cons id rest ih =>
    have misses_rest : ¬∃ id ∈ rest, sockets.available id ∧ input.isExcluded id = false :=
      fun ⟨other, mem, usable⟩ => misses ⟨other, mem_cons_of_mem _ mem, usable⟩
    rw [probeIds]
    cases rest with
    | nil =>
      cases available : sockets.available id with
      | true => exact .inl ⟨id, by simp, by simp [available]⟩
      | false => exact .inr ⟨by simp [probeIds], by simp [available]⟩
    | cons next rest =>
      have unusable : ¬(input.isExcluded id = false ∧ sockets.available id) :=
        fun usable => misses ⟨id, mem_cons_self, usable.2, usable.1⟩
      rw [if_neg (by simpa using unusable), getLast?_cons_cons]
      exact ih misses_rest

/-- The answer of the probes is the right one under the two conditions, and only then. -/
theorem takesLastChance_probeIds (probed : probes ⊆ listed) :
    TakesLastChance sockets input listed (probeIds sockets input probes) ↔
      MeetsUsable sockets input listed probes ∧ EndsAvailable sockets input listed probes := by
  by_cases meets : ∃ id ∈ probes, sockets.available id ∧ input.isExcluded id = false
  · -- a usable server is met: it is taken, and not all available servers are excluded
    obtain ⟨id, found, not_excluded⟩ := probeIds_usable meets
    obtain ⟨usable, usable_mem, usable_available, usable_ok⟩ := meets
    refine iff_of_true ⟨fun _ => ⟨id, found⟩, ?_⟩
      ⟨fun _ => ⟨usable, usable_mem, usable_available, usable_ok⟩, ?_⟩
    · intro other found_other excluded
      obtain rfl : id = other := Except.ok.inj (found.symm.trans found_other)
      simp [not_excluded] at excluded
    · intro _ all_excluded
      have excluded := all_excluded usable (probed usable_mem) usable_available
      simp [usable_ok] at excluded
  · have answer := probeIds_unusable meets
    constructor
    · rintro ⟨answers, last_only⟩
      refine ⟨?_, ?_⟩
      · rintro ⟨usable, usable_mem, usable_available, usable_ok⟩
        -- the answer can only be an excluded server
        obtain ⟨id, found⟩ := answers ⟨usable, usable_mem, usable_available⟩
        rcases answer with ⟨last, last_mem, found_last, available⟩ | ⟨failed, -⟩
        · have excluded : input.isExcluded last = true := by
            by_contra not_excluded
            have last_probed := mem_of_getLast? last_mem
            exact meets ⟨last, last_probed, available, by simpa using not_excluded⟩
          have all_excluded := last_only last found_last excluded usable usable_mem usable_available
          simp [usable_ok] at all_excluded
        · simp [failed] at found
      · intro some_available _
        obtain ⟨id, found⟩ := answers some_available
        rcases answer with ⟨last, last_mem, -, available⟩ | ⟨failed, -⟩
        · exact ⟨last, last_mem, available⟩
        · simp [failed] at found
    · rintro ⟨meets_usable, ends_available⟩
      have all_excluded : ∀ id ∈ listed, sockets.available id → input.isExcluded id := by
        intro id mem available
        by_contra not_excluded
        exact meets (meets_usable ⟨id, mem, available, by simpa using not_excluded⟩)
      refine ⟨fun some_available => ?_, fun _ _ _ => all_excluded⟩
      obtain ⟨last, last_mem, available⟩ := ends_available some_available all_excluded
      rcases answer with ⟨id, -, found, -⟩ | ⟨-, unavailable⟩
      · exact ⟨id, found⟩
      · simp [unavailable last last_mem] at available

end Probes

namespace RoundRobin

variable {call : SelectCall Addr} {s : Servers} {tls : TLS}

def probePositions (n : Nat) : Nat → TLS → List Nat
  | 0, _ => []
  | remaining + 1, tls =>
    (tls.advance n).offset.toNat :: probePositions n remaining (tls.advance n)

def serversAt (s : Servers) (positions : List Nat) : List SocketId :=
  positions.filterMap fun position => s.serverList[position]?.map ServerId.id

def probes (call : SelectCall Addr) (s : Servers) (tls : TLS) : List SocketId :=
  serversAt s (probePositions s.serverList.length s.serverList.length
    (tls.prepare call s.serverList.length))

theorem serversAt_subset (positions : List Nat) :
    serversAt s positions ⊆ s.serverList.map ServerId.id := by
  intro id mem
  obtain ⟨place, -, here⟩ := mem_filterMap.mp mem
  obtain ⟨server, found, rfl⟩ := Option.map_eq_some_iff.mp here
  exact mem_map_of_mem (mem_of_getElem? found)

theorem toNat_advance (n : Nat) (tls : TLS) :
    (tls.advance n).offset.toNat = (tls.offset + tls.stride).toNat % n :=
  UInt32.toNat_ofNat_of_lt'
    ((mod_le _ _).trans_lt (tls.offset + tls.stride).toNat_lt)

theorem exists_server (ne : s.serverList ≠ []) (tls : TLS) :
    ∃ server, s.serverList[(tls.advance s.serverList.length).offset.toNat]? = some server := by
  refine ⟨_, getElem?_eq_getElem ?_⟩
  rw [toNat_advance]
  exact mod_lt _ (length_pos_of_ne_nil ne)

theorem length_serversAt (ne : s.serverList ≠ []) (remaining : Nat) (tls : TLS) :
    (serversAt s (probePositions s.serverList.length remaining tls)).length = remaining := by
  induction remaining generalizing tls with
  | zero => rfl
  | succ remaining ih =>
    obtain ⟨server, found⟩ := exists_server ne tls
    rw [probePositions, serversAt, filterMap_cons_some (b := server.id) (by rw [found]; rfl),
      length_cons, ← serversAt, ih]

theorem selectLoop_eq (call : SelectCall Addr) (ne : s.serverList ≠ []) (left : Nat)
    (tls : TLS) :
    ∃ after, selectLoop call s left tls =
      some (probeIds call.sockets call.input
        (serversAt s (probePositions s.serverList.length left tls)), after) := by
  induction left generalizing tls with
  | zero => exact ⟨tls, rfl⟩
  | succ left ih =>
    obtain ⟨server, found⟩ := exists_server ne tls
    have last_iff : left = 0 ↔ serversAt s (probePositions s.serverList.length left
        (tls.advance s.serverList.length)) = [] := by
      rw [← length_eq_zero_iff, length_serversAt ne]
    rw [probePositions, serversAt, filterMap_cons_some (b := server.id) (by rw [found]; rfl),
      ← serversAt, probeIds, selectLoop]
    simp only [found, ← last_iff]
    split
    · exact ⟨_, rfl⟩
    · exact ih _

theorem probePositions_perm {n : Nat} (coprime : tls.stride.toNat.Coprime n)
    (fits : n + tls.stride.toNat ≤ 2 ^ 32) : (probePositions n n tls).Perm (List.range n) := by
  rcases Nat.eq_zero_or_pos n with rfl | pos
  · exact List.Perm.refl _
  have positions_eq : ∀ left (tls : TLS), n + tls.stride.toNat ≤ 2 ^ 32 →
      probePositions n left tls = (List.range left).map fun count =>
        ((tls.offset + tls.stride).toNat + count * tls.stride.toNat) % n := by
    intro left
    induction left with
    | zero => exact fun _ _ => rfl
    | succ left ih =>
      intro tls fits
      have next_lt : (tls.offset + tls.stride).toNat % n < n := mod_lt _ pos
      have next_eq : ((tls.advance n).offset + tls.stride).toNat =
          (tls.offset + tls.stride).toNat % n + tls.stride.toNat := by
        rw [UInt32.toNat_add, toNat_advance, mod_eq_of_lt (by omega)]
      rw [probePositions, ih (tls.advance n) fits, toNat_advance, range_succ_eq_map,
        map_cons, map_map, zero_mul, add_zero]
      refine congrArg _ (map_congr_left fun count _ => ?_)
      change (((tls.advance n).offset + tls.stride).toNat + count * tls.stride.toNat) % n =
        ((tls.offset + tls.stride).toNat + (count + 1) * tls.stride.toNat) % n
      rw [next_eq, succ_mul, add_assoc, mod_add_mod, add_comm (count * tls.stride.toNat)]
  rw [positions_eq n tls fits]
  exact strides_perm coprime _

theorem meetsUsable_of_coprime
    (coprime : (tls.prepare call s.serverList.length).stride.toNat.Coprime s.serverList.length)
    (fits : s.serverList.length + (tls.prepare call s.serverList.length).stride.toNat ≤ 2 ^ 32) :
    MeetsUsable call.sockets call.input (s.serverList.map ServerId.id) (probes call s tls) := by
  rintro ⟨id, id_mem, usable⟩
  refine ⟨id, ?_, usable⟩
  obtain ⟨server, mem, rfl⟩ := mem_map.mp id_mem
  obtain ⟨place, inside, here⟩ := getElem_of_mem mem
  refine mem_filterMap.mpr ⟨place, ?_, ?_⟩
  · exact (probePositions_perm coprime fits).mem_iff.mpr (mem_range.mpr inside)
  · rw [getElem?_eq_getElem inside, here]
    rfl

end RoundRobin

namespace ConsistentHashing

variable {call : SelectCall Addr} {ring : List (Node Addr)}

def probes (call : SelectCall Addr) (ring : List (Node Addr)) : List SocketId :=
  (ring.rotate (choicePosition ring call.input.requestCode.toUInt32)).map (·.serverSock.id)

theorem probe_eq (nodes : List (Node Addr)) :
    probe call nodes = probeIds call.sockets call.input (nodes.map (·.serverSock.id)) := by
  induction nodes with
  | nil => rfl
  | cons node rest ih =>
    rw [probe, map_cons, probeIds, ih]
    simp

theorem mem_probes_iff {id : SocketId} :
    id ∈ probes call ring ↔ id ∈ ring.map (·.serverSock.id) := by
  rw [probes, map_rotate, mem_rotate]

theorem meetsUsable :
    MeetsUsable call.sockets call.input (ring.map (·.serverSock.id)) (probes call ring) :=
  fun ⟨id, mem, usable⟩ => ⟨id, mem_probes_iff.mpr mem, usable⟩

def HasCode (input : SelectIn) : Prop :=
  input.hasRequestCode = true ∧ input.requestCode.toNat < 2 ^ 32

theorem selectServer_of_hasCode (has_code : HasCode call.input) : selectServer call ring =
      if ring = [] then .error .enodata
      else probeIds call.sockets call.input (probes call ring) := by
  rw [selectServer, if_neg (by simp [has_code.1]), if_neg (by have := has_code.2; omega),
    probe_eq, probes]

theorem selectServer_of_not_hasCode (no_code : ¬HasCode call.input) :
    selectServer call ring = .error .einval := by
  rw [selectServer]
  split
  · rfl
  · next has_code =>
    rw [if_pos]
    by_contra small
    exact no_code ⟨by simpa using has_code, by omega⟩

end ConsistentHashing

/-- Round robin answers rightly if and only if it meets a usable server, if there is one, and ends
at an available server, if all available servers are excluded; the first is so for a stride
without common divisor.  Consistent hashing meets every server, and answers rightly if and only if
the request has a code and the last probe is right. -/
theorem takesLastChance_iff :
    (∀ (call : RoundRobin.SelectCall Addr) (s : RoundRobin.Servers) (tls : RoundRobin.TLS),
      call.rejects = false →
      ∃ result after, RoundRobin.selectServer call s tls = some (result, after) ∧
        (TakesLastChance call.sockets call.input (s.serverList.map ServerId.id) result ↔
          MeetsUsable call.sockets call.input (s.serverList.map ServerId.id)
              (probes call s tls) ∧
            EndsAvailable call.sockets call.input (s.serverList.map ServerId.id)
              (probes call s tls)) ∧
        ((tls.prepare call s.serverList.length).stride.toNat.Coprime s.serverList.length →
          s.serverList.length + (tls.prepare call s.serverList.length).stride.toNat ≤ 2 ^ 32 →
          MeetsUsable call.sockets call.input (s.serverList.map ServerId.id)
            (probes call s tls))) ∧
    ∀ (call : ConsistentHashing.SelectCall Addr) (ring : List (ConsistentHashing.Node Addr)),
      TakesLastChance call.sockets call.input (ring.map (·.serverSock.id))
          (selectServer call ring) ↔
        ((∃ id ∈ ring.map (·.serverSock.id), call.sockets.available id) →
          ConsistentHashing.HasCode call.input) ∧
        EndsAvailable call.sockets call.input (ring.map (·.serverSock.id))
          (probes call ring) := by
  constructor
  · intro call s tls not_rejects
    by_cases nonempty : s.serverList = []
    · refine ⟨.error .enodata, tls, ?_, ?_, ?_⟩
      · rw [RoundRobin.selectServer, nonempty]
        rfl
      · simp [TakesLastChance, MeetsUsable, EndsAvailable, nonempty]
      · exact meetsUsable_of_coprime
    · obtain ⟨after, selected⟩ := selectLoop_eq call nonempty s.serverList.length
        (tls.prepare call s.serverList.length)
      refine ⟨_, after, ?_, takesLastChance_probeIds ?_, meetsUsable_of_coprime⟩
      · rw [RoundRobin.selectServer]
        simp only [length_eq_zero_iff, nonempty, not_rejects]
        exact selected
      · exact serversAt_subset _
  · intro call ring
    by_cases has_code : ConsistentHashing.HasCode call.input
    · rw [selectServer_of_hasCode has_code]
      split
      · next empty => simp [TakesLastChance, EndsAvailable, empty]
      · rw [takesLastChance_probeIds fun id id_mem => mem_probes_iff.mp id_mem]
        exact and_congr_left' (iff_of_true meetsUsable fun _ => has_code)
    · rw [selectServer_of_not_hasCode has_code]
      constructor
      · rintro ⟨answers, -⟩
        have none_available : ¬∃ id ∈ ring.map (·.serverSock.id), call.sockets.available id := by
          intro some_available
          obtain ⟨id, found⟩ := answers some_available
          cases found
        exact ⟨fun some_available => (none_available some_available).elim,
          fun some_available => (none_available some_available).elim⟩
      · rintro ⟨needs_code, -⟩
        exact ⟨fun some_available => (has_code (needs_code some_available)).elim,
          fun _ found => by cases found⟩

/-- Two servers of which the first is available. -/
def firstAvailable : Sockets Unit := fun slot => if slot = 1 then some ⟨0, (), false, 0⟩ else none

/-- A request with a code that excludes the first server. -/
def excludesFirst : SelectIn :=
  { beginTimeUs := 0, changableWeights := false, hasRequestCode := true, requestCode := 0,
    excluded := some [1] }

def roundRobinPair : RoundRobin.Servers := (batchAdd .empty [⟨1, ""⟩, ⟨2, ""⟩]).2

def roundRobinCall : RoundRobin.SelectCall Unit :=
  { sockets := firstAvailable, input := excludesFirst, rejects := false, randomStride := 0,
    randomOffset := 0 }

def hashRingPair : List (ConsistentHashing.Node Unit) := [⟨1, ⟨1, ""⟩, ()⟩, ⟨2, ⟨2, ""⟩, ()⟩]

/-- From the start, round robin ends at the first server. -/
theorem takesLastChance_iff_pair : (∃ result after,
      RoundRobin.selectServer roundRobinCall roundRobinPair ⟨36809, 0⟩ = some (result, after) ∧
        TakesLastChance firstAvailable excludesFirst (roundRobinPair.serverList.map ServerId.id)
          result) ∧
      ¬TakesLastChance firstAvailable excludesFirst (hashRingPair.map (·.serverSock.id))
        (selectServer ⟨firstAvailable, excludesFirst⟩ hashRingPair) := by
  constructor
  · obtain ⟨result, after, selected, right_iff, meets⟩ :=
      takesLastChance_iff.1 roundRobinCall roundRobinPair ⟨36809, 0⟩ rfl
    have meets_usable := meets (by decide +kernel) (by decide +kernel)
    refine ⟨result, after, selected, right_iff.mpr ⟨meets_usable, ?_⟩⟩
    exact fun _ _ => ⟨1, by decide +kernel, by decide +kernel⟩
  · rw [takesLastChance_iff.2 ⟨firstAvailable, excludesFirst⟩ hashRingPair]
    rintro ⟨-, ends⟩
    obtain ⟨id, last, available⟩ := ends (by decide +kernel) (forall_mem_cons.mpr
      ⟨by decide +kernel, forall_mem_singleton.mpr (by decide +kernel)⟩)
    have last_eq : (probes ⟨firstAvailable, excludesFirst⟩
        hashRingPair).getLast? = some 2 := by decide +kernel
    obtain rfl : id = 2 := by simpa [last_eq, eq_comm] using last
    exact absurd available (by decide +kernel)

/-- One probe further on, both balancers end at the second server and fail. -/
theorem selectServer_misses_available :
    (∃ id ∈ roundRobinPair.serverList.map ServerId.id, firstAvailable.available id) ∧
      (RoundRobin.selectServer roundRobinCall roundRobinPair ⟨36809, 1⟩).map Prod.fst =
        some (.error .ehostdown) ∧
      (∃ id ∈ hashRingPair.map (·.serverSock.id), firstAvailable.available id) ∧
      selectServer ⟨firstAvailable, excludesFirst⟩ hashRingPair =
        .error .ehostdown := by
  refine ⟨by decide +kernel, ?_, by decide +kernel, ?_⟩
  · rfl
  · rfl

end McBrpc
