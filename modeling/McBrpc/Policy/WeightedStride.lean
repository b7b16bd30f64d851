import Mathlib.Data.List.TakeWhile
import Mathlib.NumberTheory.LucasPrimality
import Mathlib.Tactic.NormNum.Prime
import Mathlib.Tactic.ReduceModChar
import McBrpc.Library.Fuel
import McBrpc.Policy.WeightedRoundRobin

/-!
# Strides of the weighted round robin balancer

`GetStride` finds a stride without common divisor: a sum below `2 ^ 64` cannot be a multiple of both
the last two primes of its table.  The walk of `GetServerInNextStride` ends in a server that is not
filtered, as long as there is one.
-/

namespace McBrpc.WeightedRoundRobin

open List Nat Option TLS UInt32 SettlesOn

theorem euclid_eq {num1 num2 : Nat} (pos : 0 < num2) : euclid num1 num2 = some (num1.gcd num2) := by
  fun_induction euclid num1 num2 with
  | case1 => omega
  | case2 num1 num2 nonzero divides =>
    rw [gcd_comm, gcd_eq_left (dvd_of_mod_eq_zero divides)]
  | case3 num1 num2 nonzero divides ih =>
    rw [ih (pos_of_ne_zero divides), gcd_comm, ← gcd_rec, gcd_comm]

theorem isCoprime_eq {num1 num2 : Nat} (first : 0 < num1) (second : 0 < num2) :
    isCoprime num1 num2 = some (decide (num1.Coprime num2)) := by
  rw [isCoprime]
  split
  · rw [euclid_eq first, gcd_comm]
    rfl
  · rw [euclid_eq second]
    rfl

theorem firstCoprime_eq {weightSum : Nat} (pos : 0 < weightSum) {primes : List Nat}
    (primes_pos : ∀ prime ∈ primes, 0 < prime) :
    firstCoprime weightSum primes = primes.find? fun prime => weightSum.Coprime prime := by
  induction primes with
  | nil => rfl
  | cons prime primes ih =>
    rw [firstCoprime, isCoprime_eq pos (primes_pos prime mem_cons_self), find?_cons]
    cases decide (weightSum.Coprime prime) with
    | true => rfl
    | false => exact ih fun other mem => primes_pos other (mem_cons_of_mem _ mem)

theorem prime_secondLast : Nat.Prime 6352945771 := by
  apply lucas_primality _ (2 : ZMod 6352945771)
  · norm_num
    reduce_mod_char
  · intro factor factor_prime divides
    have factors : 6352945771 - 1 = 2 * 3 * 5 * 4519 * 46861 := by norm_num
    rw [factors] at divides
    simp only [factor_prime.dvd_mul] at divides
    rcases divides with (((same | same) | same) | same) | same <;>
      rw [prime_dvd_prime_iff_eq factor_prime (by norm_num)] at same <;>
      subst same <;> norm_num <;> reduce_mod_char <;> decide

theorem prime_last : Nat.Prime 9529418671 := by
  apply lucas_primality _ (3 : ZMod 9529418671)
  · norm_num
    reduce_mod_char
  · intro factor factor_prime divides
    have factors : 9529418671 - 1 = 2 * 3 * 5 * 149 * 953 * 2237 := by norm_num
    rw [factors] at divides
    simp only [factor_prime.dvd_mul] at divides
    rcases divides with ((((same | same) | same) | same) | same) | same <;>
      rw [prime_dvd_prime_iff_eq factor_prime (by norm_num)] at same <;>
      subst same <;> norm_num <;> reduce_mod_char <;> decide

theorem coprime_or_coprime {first second number : Nat} (first_prime : first.Prime)
    (second_prime : second.Prime) (ne : first ≠ second) (pos : 0 < number)
    (bounded : number < first * second) : number.Coprime first ∨ number.Coprime second := by
  by_contra neither
  obtain ⟨not_first, not_second⟩ := not_or.mp neither
  have first_dvd : first ∣ number :=
    not_not.mp (mt (first_prime.coprime_iff_not_dvd.mpr) (mt Nat.Coprime.symm not_first))
  have second_dvd : second ∣ number :=
    not_not.mp (mt (second_prime.coprime_iff_not_dvd.mpr) (mt Nat.Coprime.symm not_second))
  have coprime := (coprime_primes first_prime second_prime).mpr ne
  have := le_of_dvd pos (coprime.mul_dvd_of_dvd_of_dvd first_dvd second_dvd)
  omega

theorem mem_dropWhile_of_not {α : Type*} {test : α → Bool} {items : List α} {item : α}
    (mem : item ∈ items) (fails : test item = false) : item ∈ items.dropWhile test := by
  rw [← takeWhile_append_dropWhile (p := test) (l := items), mem_append] at mem
  refine mem.resolve_left fun taken => ?_
  simp [mem_takeWhile_imp taken] at fails

theorem getStride_spec {weightSum : Nat} (pos : 0 < weightSum) (bounded : weightSum < 2 ^ 64)
    (num : Nat) :
    ∃ stride, getStride weightSum num = some stride ∧ 0 < stride ∧ stride.Coprime weightSum := by
  rw [getStride]
  split
  · next one => exact ⟨1, rfl, one_pos, coprime_one_left _⟩
  · next several =>
    have primes_pos : ∀ prime ∈ primeStride.dropWhile (· < weightSum / num % 2 ^ 32),
        0 < prime := by
      intro prime prime_mem
      have listed := (dropWhile_sublist _).subset prime_mem
      have all : ∀ prime ∈ primeStride, 0 < prime := by decide
      exact all prime listed
    have found : ∃ prime ∈ primeStride.dropWhile (· < weightSum / num % 2 ^ 32),
        weightSum.Coprime prime := by
      have below : weightSum < 6352945771 * 9529418671 := by omega
      rcases coprime_or_coprime prime_secondLast prime_last (by norm_num) pos below
        with coprime | coprime
      · refine ⟨_, mem_dropWhile_of_not (by decide) ?_, coprime⟩
        simp only [decide_eq_false_iff_not]
        omega
      · refine ⟨_, mem_dropWhile_of_not (by decide) ?_, coprime⟩
        simp only [decide_eq_false_iff_not]
        omega
    simp only [firstCoprime_eq pos primes_pos]
    cases first : (primeStride.dropWhile (· < weightSum / num % 2 ^ 32)).find?
        fun prime => weightSum.Coprime prime with
    | none =>
      obtain ⟨prime, prime_mem, coprime⟩ := found
      exact absurd (by simpa using coprime) (find?_eq_none.mp first prime prime_mem)
    | some prime =>
      have coprime : prime.Coprime weightSum := by
        simpa [coprime_comm] using find?_some first
      have prime_pos := primes_pos prime (mem_of_find?_eq_some first)
      refine ⟨_, rfl, ?_⟩
      dsimp only
      split
      · have reduced : (prime % weightSum).Coprime weightSum := by
          rwa [Nat.Coprime, ← gcd_rec, gcd_comm]
        refine ⟨pos_of_ne_zero fun zero => ?_, reduced⟩
        rw [zero, coprime_zero_left] at reduced
        exact several reduced
      · exact ⟨prime_pos, coprime⟩

theorem getStride_zero (num : Nat) : getStride 0 num = none := by
  have refused : isCoprime 0 2 = none := by
    rw [isCoprime, if_pos (by norm_num), euclid]
    rfl
  have start : primeStride.dropWhile (· < 0 / num % 2 ^ 32) = primeStride := by
    rw [Nat.zero_div, Nat.zero_mod]
    rfl
  simp only [getStride, start]
  rw [if_neg (by norm_num), primeStride, firstCoprime, refused]
  rfl

theorem getStride_pos {weightSum : UInt64} {num stride : Nat}
    (found : getStride weightSum.toNat num = some stride) : 0 < stride := by
  rcases Nat.eq_zero_or_pos weightSum.toNat with zero | pos
  · rw [zero, getStride_zero] at found
    simp at found
  · obtain ⟨same, found', stride_pos, -⟩ := getStride_spec pos weightSum.toNat_lt num
    obtain rfl := some.inj (found.symm.trans found')
    exact stride_pos

variable {serverList : List Server} {filter : List SocketId}

/-- The thread stands at a server of the list, and what remains of it is less than its weight. -/
def Seated (serverList : List Server) (tls : TLS) : Prop :=
  ∃ server, serverList[tls.position]? = some server ∧
    (tls.remainServer.weight = 0 ∨
      tls.remainServer.id = server.id ∧ tls.remainServer.weight < server.weight)

@[simp]
theorem useUpStride_zero (fuel : Nat) (final : SocketId) (tls : TLS) :
    useUpStride serverList filter fuel 0 final tls = some (final, tls) := by
  cases fuel <;> rfl

variable {tls after : TLS} {stride fuel : Nat} {id : SocketId}

theorem TLS.advance_inside (inside : tls.position < serverList.length) :
    (tls.advance serverList.length).position < serverList.length :=
  mod_lt _ (by omega)

theorem settles_of_unfiltered {server : Server} (here : serverList[tls.position]? = some server)
    (pos : 0 < server.weight) (kept : server.id ∉ filter) (final : SocketId)
    (less : ∀ next < stride + 1, ∃ out, SettlesOn
      (useUpStride serverList filter · next server.id (tls.advance serverList.length)) out) :
    ∃ out, SettlesOn (useUpStride serverList filter · (stride + 1) final tls) out := by
  by_cases wide : server.weight.toNat > stride + 1
  · let rest : Server := ⟨server.id, server.weight - UInt32.ofNat (stride + 1)⟩
    refine ⟨(server.id, { tls with remainServer := rest }), .last_round ?_⟩
    intro fuel
    simp [useUpStride, here, if_neg kept, if_pos wide, rest]
  · have pos : 0 < server.weight.toNat := pos
    obtain ⟨out, settles⟩ := less (stride + 1 - server.weight.toNat) (by omega)
    refine ⟨out, round ?_ settles⟩
    intro fuel
    simp [useUpStride, here, if_neg kept, if_neg wide]

theorem useUpStride_settles (weight_pos : ∀ server ∈ serverList, 0 < server.weight) {goal : Nat}
    {free : Server} (at_goal : serverList[goal]? = some free) (kept : free.id ∉ filter)
    (stride : Nat) (inside : tls.position < serverList.length) (final : SocketId) :
    ∃ out, SettlesOn (useUpStride serverList filter · stride final tls) out := by
  induction stride using Nat.strong_induction_on generalizing tls final with
  | _ stride shorter =>
    cases stride with
    | zero => exact ⟨_, .of_forall fun fuel => useUpStride_zero fuel final tls⟩
    | succ stride =>
      -- the free server is met within a round, and takes from the stride
      have goal_lt : goal < serverList.length := (List.getElem?_eq_some_iff.mp at_goal).1
      obtain ⟨distance, reaches⟩ : ∃ distance,
          (tls.position + distance) % serverList.length = goal := by
        refine ⟨serverList.length - tls.position + goal, ?_⟩
        rw [← Nat.add_assoc, Nat.add_sub_cancel' inside.le, Nat.add_mod_left,
          Nat.mod_eq_of_lt goal_lt]
      induction distance generalizing tls final with
      | zero =>
        rw [add_zero, Nat.mod_eq_of_lt inside] at reaches
        subst reaches
        refine settles_of_unfiltered at_goal
          (weight_pos free (mem_of_getElem? at_goal)) kept final ?_
        intro next less
        exact shorter next less (advance_inside inside) free.id
      | succ distance nearer =>
        obtain ⟨server, here⟩ : ∃ server, serverList[tls.position]? = some server :=
          ⟨_, getElem?_eq_getElem inside⟩
        by_cases filtered : server.id ∈ filter
        · have closer : ((tls.advance serverList.length).position + distance) %
              serverList.length = goal := by
            rw [advance, mod_add_mod, add_right_comm, ← reaches, Nat.add_assoc]
          obtain ⟨out, settles⟩ := nearer (advance_inside inside) server.id closer
          refine ⟨out, round ?_ settles⟩
          intro fuel
          simp [useUpStride, here, if_pos filtered]
        · refine settles_of_unfiltered here
            (weight_pos server (mem_of_getElem? here)) filtered final ?_
          intro next less
          exact shorter next less (advance_inside inside) server.id

theorem useUpStride_unfiltered {final : SocketId}
    (walked : useUpStride serverList filter fuel stride final tls = some (id, after))
    (pos : 0 < stride) : id ∉ filter ∧ ∃ server ∈ serverList, server.id = id := by
  fun_induction useUpStride serverList filter fuel stride final tls with
  | case1 => omega
  | case2 | case3 => simp at walked
  | case4 fuel stride _ tls server here filtered ih => exact ih walked (by omega)
  | case5 fuel stride _ tls server here kept wide =>
    obtain ⟨rfl, -⟩ := Prod.mk.inj (some.inj walked)
    exact ⟨kept, server, mem_of_getElem? here, rfl⟩
  | case6 fuel stride _ tls server here kept wide ih =>
    cases left : stride + 1 - server.weight.toNat with
    | zero =>
      rw [left, useUpStride_zero] at walked
      obtain ⟨rfl, -⟩ := Prod.mk.inj (some.inj walked)
      exact ⟨kept, server, mem_of_getElem? here, rfl⟩
    | succ => exact ih walked (by omega)

theorem toNat_sub_ofNat {weight : UInt32} {spent : Nat} (fits : spent ≤ weight.toNat) :
    (weight - UInt32.ofNat spent).toNat = weight.toNat - spent := by
  have spent_lt : spent < 2 ^ 32 := fits.trans_lt weight.toNat_lt
  have toNat_spent := UInt32.toNat_ofNat_of_lt' spent_lt
  rw [UInt32.toNat_sub_of_le _ _ (by rwa [UInt32.le_iff_toNat_le, toNat_spent]), toNat_spent]

theorem useUpStride_seated {final : SocketId}
    (walked : useUpStride serverList filter fuel stride final tls = some (id, after))
    (inside : tls.position < serverList.length) (nothing : tls.remainServer.weight = 0) :
    Seated serverList after := by
  fun_induction useUpStride serverList filter fuel stride final tls with
  | case1 =>
    obtain ⟨-, rfl⟩ := Prod.mk.inj (some.inj walked)
    exact ⟨_, getElem?_eq_getElem inside, .inl nothing⟩
  | case2 | case3 => simp at walked
  | case4 fuel stride _ tls server here filtered ih =>
    exact ih walked (advance_inside inside) nothing
  | case5 fuel stride _ tls server here kept wide =>
    obtain ⟨-, rfl⟩ := Prod.mk.inj (some.inj walked)
    refine ⟨server, here, .inr ⟨rfl, ?_⟩⟩
    rw [lt_iff_toNat_lt, toNat_sub_ofNat (by omega)]
    omega
  | case6 fuel stride _ tls server here kept wide ih =>
    exact ih walked (advance_inside inside) nothing

theorem getServerInNextStride_settles (weight_pos : ∀ server ∈ serverList, 0 < server.weight)
    {goal : Nat} {free : Server} (at_goal : serverList[goal]? = some free)
    (kept : free.id ∉ filter) (inside : tls.position < serverList.length) :
    ∃ out, SettlesOn (getServerInNextStride · serverList filter tls) out := by
  have walks : ∀ stride final (tls : TLS), tls.position < serverList.length →
      ∃ out, SettlesOn (useUpStride serverList filter · stride final tls) out :=
    fun stride final _ inside =>
      useUpStride_settles weight_pos at_goal kept stride inside final
  simp only [getServerInNextStride]
  split
  · split
    · exact walks _ _ _ (advance_inside inside)
    · split
      · exact ⟨_, .of_forall fun _ => rfl⟩
      · exact walks _ _ _ (advance_inside inside)
  · exact walks _ _ _ inside

variable (walked : getServerInNextStride fuel serverList filter tls = some (id, after))
include walked

theorem getServerInNextStride_unfiltered
    (pos : 0 < tls.stride) (remains : tls.remainServer.weight = 0 ∨
      ∃ server ∈ serverList, server.id = tls.remainServer.id) :
    id ∉ filter ∧ ∃ server ∈ serverList, server.id = id := by
  simp only [getServerInNextStride] at walked
  split at walked
  · next some_remains =>
    have listed := remains.resolve_left (by rintro zero; simp [zero] at some_remains)
    split at walked
    · exact useUpStride_unfiltered walked pos
    · next kept =>
      split at walked
      · obtain ⟨rfl, -⟩ := Prod.mk.inj (some.inj walked)
        exact ⟨kept, listed⟩
      · cases left : tls.stride - tls.remainServer.weight.toNat with
        | zero =>
          rw [left, useUpStride_zero] at walked
          obtain ⟨rfl, -⟩ := Prod.mk.inj (some.inj walked)
          exact ⟨kept, listed⟩
        | succ => exact useUpStride_unfiltered walked (by omega)
  · exact useUpStride_unfiltered walked pos

theorem getServerInNextStride_seated
    (seated : Seated serverList tls) : Seated serverList after := by
  obtain ⟨server, here, remains⟩ := seated
  have inside := (List.getElem?_eq_some_iff.mp here).1
  simp only [getServerInNextStride] at walked
  split at walked
  · next some_remains =>
    have rest := remains.resolve_left (by rintro zero; simp [zero] at some_remains)
    split at walked
    · exact useUpStride_seated walked (advance_inside inside) rfl
    · split at walked
      · obtain ⟨-, rfl⟩ := Prod.mk.inj (some.inj walked)
        refine ⟨server, here, .inr ⟨rest.1, ?_⟩⟩
        have less := lt_iff_toNat_lt.mp rest.2
        rw [lt_iff_toNat_lt, toNat_sub_ofNat (by omega)]
        omega
      · exact useUpStride_seated walked (advance_inside inside) rfl
  · next none_remains =>
    refine useUpStride_seated walked inside ?_
    simpa [pos_iff_ne_zero] using none_remains

end McBrpc.WeightedRoundRobin
