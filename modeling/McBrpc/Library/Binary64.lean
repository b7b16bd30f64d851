import Mathlib.Data.Int.ConditionallyCompleteOrder
import Mathlib.Data.Int.Log
import Mathlib.Data.Rat.Floor
import Mathlib.Tactic.Positivity

/-!
# Rounding to binary64

Numbers of the binary64 format have 53 significant bits.  Within the range of the exponent, an
operation on them returns its exact result rounded to the nearest such number, ties to even.
-/

namespace Binary64

open Int

/-- The nearest integer, ties to even. -/
def roundHalfEven (x : ℚ) : ℤ :=
  if fract x < 1 / 2 ∨ (fract x = 1 / 2 ∧ ⌊x⌋ % 2 = 0) then ⌊x⌋ else ⌊x⌋ + 1

theorem abs_roundHalfEven_sub_le (x : ℚ) : |(roundHalfEven x : ℚ) - x| ≤ 1 / 2 := by
  have split : (⌊x⌋ : ℚ) + fract x = x := floor_add_fract x
  have lower := fract_nonneg x
  have upper := fract_lt_one x
  rw [roundHalfEven, abs_le]
  split_ifs with down
  · have half : fract x ≤ 1 / 2 := by
      rcases down with below | ⟨tie, -⟩
      · exact below.le
      · exact tie.le
    constructor <;> linarith
  · have half : 1 / 2 ≤ fract x := by
      by_contra below
      exact down (.inl (not_le.mp below))
    push_cast
    constructor <;> linarith

@[simp]
theorem roundHalfEven_intCast (n : ℤ) : roundHalfEven (n : ℚ) = n := by
  simp [roundHalfEven]

/-- The distance between neighbouring numbers of the format around `x`. -/
def ulp (x : ℚ) : ℚ :=
  2 ^ (log 2 |x| - 52)

def round (x : ℚ) : ℚ :=
  roundHalfEven (x / ulp x) * ulp x

theorem ulp_pos (x : ℚ) : 0 < ulp x :=
  zpow_pos (by norm_num) _

theorem abs_round_sub_le (x : ℚ) : |round x - x| ≤ ulp x / 2 := by
  have pos := ulp_pos x
  have error := abs_roundHalfEven_sub_le (x / ulp x)
  calc |round x - x| = |(roundHalfEven (x / ulp x) : ℚ) - x / ulp x| * ulp x := by
        rw [round, ← abs_of_pos pos, ← abs_mul, abs_of_pos pos, sub_mul, div_mul_cancel₀ _ pos.ne']
    _ ≤ 1 / 2 * ulp x := mul_le_mul_of_nonneg_right error pos.le
    _ = ulp x / 2 := by ring

variable {x : ℚ}

theorem ulp_le {k : ℤ} (pos : 0 < x) (bound : x < 2 ^ k) : ulp x ≤ 2 ^ (k - 53) := by
  have log_lt : log 2 x < k := by
    rw [← lt_zpow_iff_log_lt (by norm_num) pos]
    exact_mod_cast bound
  rw [ulp, abs_of_pos pos]
  exact zpow_le_zpow_right₀ (by norm_num) (by omega)

@[simp]
theorem round_zero : round 0 = 0 := by
  simp [round, show roundHalfEven 0 = 0 from roundHalfEven_intCast 0]

theorem abs_round_sub_le_mul (x : ℚ) : |round x - x| ≤ |x| / 2 ^ 53 := by
  rcases eq_or_ne x 0 with rfl | nonzero
  · simp
  · have log_le : (2 : ℚ) ^ log 2 |x| ≤ |x| :=
      zpow_log_le_self (by norm_num) (abs_pos.mpr nonzero)
    have ulp_eq : ulp x = 2 ^ log 2 |x| / 2 ^ 52 := by
      rw [ulp, zpow_sub₀ (by norm_num)]
      norm_num
    calc |round x - x| ≤ ulp x / 2 := abs_round_sub_le x
      _ = 2 ^ log 2 |x| / 2 ^ 53 := by rw [ulp_eq]; ring
      _ ≤ |x| / 2 ^ 53 := by gcongr

theorem le_roundHalfEven {n : ℤ} (near : n - 1 / 2 < x) : n ≤ roundHalfEven x := by
  have split : (⌊x⌋ : ℚ) + fract x = x := floor_add_fract x
  have upper := fract_lt_one x
  rw [roundHalfEven]
  split_ifs with down
  · have half : fract x ≤ 1 / 2 := by
      rcases down with below | ⟨tie, -⟩
      · exact below.le
      · exact tie.le
    have reached : (n : ℚ) < ⌊x⌋ + 1 := by linarith
    exact lt_add_one_iff.mp (by exact_mod_cast reached)
  · have reached : (n : ℚ) < ⌊x⌋ + 1 + 1 := by linarith
    exact lt_add_one_iff.mp (by exact_mod_cast reached)

theorem le_round {x : ℚ} {e n : ℤ} (lower : 2 ^ e ≤ x) (upper : x < 2 ^ (e + 1))
    (near : (n - 1 / 2) * 2 ^ (e - 52) < x) : n * 2 ^ (e - 52) ≤ round x := by
  have pos : 0 < x := lt_of_lt_of_le (zpow_pos (by norm_num) e) lower
  have log_lt : log 2 x < e + 1 := by
    rw [← lt_zpow_iff_log_lt (by norm_num) pos]
    exact_mod_cast upper
  have le_log : e ≤ log 2 x := by
    rw [← zpow_le_iff_le_log (by norm_num) pos]
    exact_mod_cast lower
  have ulp_eq : ulp x = 2 ^ (e - 52) := by
    rw [ulp, abs_of_pos pos, show log 2 x = e by omega]
  have ulp_positive := ulp_pos x
  rw [← ulp_eq] at near ⊢
  apply mul_le_mul_of_nonneg_right _ ulp_positive.le
  exact_mod_cast le_roundHalfEven ((lt_div_iff₀ ulp_positive).mpr near)

theorem le_round_mul_round {a : ℚ} {c d m n : ℤ} (pos : 0 < a) (lower : 2 ^ c ≤ x)
    (upper : x < 2 ^ (c + 1)) (near : (m - 1 / 2) * 2 ^ (c - 52) < x)
    (product_lower : 2 ^ d ≤ a * (m * 2 ^ (c - 52)))
    (product_upper : a * (x + x / 2 ^ 53) < 2 ^ (d + 1))
    (product_near : (n - 1 / 2) * 2 ^ (d - 52) < a * (m * 2 ^ (c - 52))) :
    n * 2 ^ (d - 52) ≤ round (a * round x) := by
  have x_pos : 0 < x := lt_of_lt_of_le (zpow_pos (by norm_num) c) lower
  have rounded := mul_le_mul_of_nonneg_left (le_round lower upper near) pos.le
  have error := (abs_le.mp (abs_round_sub_le_mul x)).2
  rw [abs_of_pos x_pos] at error
  refine le_round (product_lower.trans rounded) ?_ (product_near.trans_le rounded)
  calc a * round x ≤ a * (x + x / 2 ^ 53) := mul_le_mul_of_nonneg_left (by linarith) pos.le
    _ < 2 ^ (d + 1) := product_upper

theorem round_natCast {n : ℕ} (bound : n < 2 ^ 53) : round (n : ℚ) = n := by
  rcases Nat.eq_zero_or_pos n with rfl | pos
  · simp
  · have pos' : (0 : ℚ) < n := by exact_mod_cast pos
    have log_lt : log 2 (n : ℚ) < 53 := by
      rw [← lt_zpow_iff_log_lt (by norm_num) pos']
      exact_mod_cast bound
    obtain ⟨shift, shift_eq⟩ : ∃ shift : ℕ, log 2 (n : ℚ) - 52 = -(shift : ℤ) :=
      ⟨(52 - log 2 (n : ℚ)).toNat, by omega⟩
    have scaled : (n : ℚ) / ulp n = ((n * 2 ^ shift : ℕ) : ℤ) := by
      rw [ulp, abs_of_pos pos', shift_eq, zpow_neg, div_inv_eq_mul, zpow_natCast]
      push_cast
      rfl
    rw [round, scaled, roundHalfEven_intCast, ← scaled, div_mul_cancel₀ _ (ulp_pos _).ne']

/-- Rounding a quotient does not carry it past an integer. -/
theorem floor_round_div {a b : ℕ} (pos : 0 < b) (small : b < 2 ^ 32) (bound : a < 2 ^ 20 * b) :
    ⌊round ((a : ℚ) / b)⌋ = (a / b : ℕ) := by
  have pos' : (0 : ℚ) < b := by exact_mod_cast pos
  obtain ⟨n, r, r_lt, rfl⟩ : ∃ n r, r < b ∧ a = b * n + r :=
    ⟨a / b, a % b, Nat.mod_lt _ pos, (Nat.div_add_mod a b).symm⟩
  have quotient : (b * n + r) / b = n := by
    rw [Nat.mul_add_div pos, Nat.div_eq_of_lt r_lt, Nat.add_zero]
  have n_lt : n < 2 ^ 20 := by
    rw [← quotient]
    exact Nat.div_lt_of_lt_mul (by linarith)
  have value : ((b * n + r : ℕ) : ℚ) / b = n + r / b := by
    push_cast
    field_simp
  rw [quotient, value]
  rcases Nat.eq_zero_or_pos r with rfl | r_pos
  · have exact_value : round (n : ℚ) = n := round_natCast (n_lt.trans (by norm_num))
    simp [exact_value]
  · have r_pos' : (1 : ℚ) ≤ r := by exact_mod_cast r_pos
    have r_lt' : (r : ℚ) + 1 ≤ b := by exact_mod_cast r_lt
    have gap : (1 : ℚ) / 4294967296 < 1 / b := by
      apply one_div_lt_one_div_of_lt pos'
      exact_mod_cast small
    have lower : 1 / b ≤ (r : ℚ) / b := by gcongr
    have upper : (r : ℚ) / b ≤ 1 - 1 / b := by
      rw [div_le_iff₀ pos', sub_mul, one_mul, div_mul_cancel₀ _ pos'.ne']
      linarith
    have n_le : (n : ℚ) + 1 ≤ 2 ^ 20 := by exact_mod_cast n_lt
    have near : ulp (n + r / b) ≤ 2 ^ ((20 : ℤ) - 53) :=
      ulp_le (by linarith) (by norm_num at n_le ⊢; linarith)
    have error := abs_le.mp (abs_round_sub_le (n + r / b : ℚ))
    norm_num at near
    rw [floor_eq_iff]
    push_cast
    constructor <;> linarith

theorem roundHalfEven_mono : Monotone roundHalfEven := by
  intro x y le
  have lower : ⌊y⌋ ≤ roundHalfEven y := by
    rw [roundHalfEven]
    split <;> omega
  have upper : roundHalfEven x ≤ ⌊x⌋ + 1 := by
    rw [roundHalfEven]
    split <;> omega
  rcases (floor_mono le).lt_or_eq with less | same
  · omega
  · have fract_le : fract x ≤ fract y := by
      rw [fract, fract, same]
      linarith
    rw [roundHalfEven, roundHalfEven, same]
    split_ifs with down down' down'
    · exact le_rfl
    · omega
    · rcases down' with below | ⟨tie, even⟩
      · exact absurd (.inl (fract_le.trans_lt below)) down
      · rcases fract_le.lt_or_eq with less | equal
        · exact absurd (.inl (less.trans_eq tie)) down
        · exact absurd (.inr ⟨equal.trans tie, even⟩) down
    · exact le_rfl

theorem round_nonneg (nonneg : 0 ≤ x) : 0 ≤ round x := by
  have rounded := roundHalfEven_mono (div_nonneg nonneg (ulp_pos x).le)
  rw [show roundHalfEven 0 = 0 from roundHalfEven_intCast 0] at rounded
  exact mul_nonneg (by exact_mod_cast rounded) (ulp_pos x).le

theorem round_nonpos (nonpos : x ≤ 0) : round x ≤ 0 := by
  have rounded := roundHalfEven_mono (div_nonpos_of_nonpos_of_nonneg nonpos (ulp_pos x).le)
  rw [show roundHalfEven 0 = 0 from roundHalfEven_intCast 0] at rounded
  exact mul_nonpos_of_nonpos_of_nonneg (by exact_mod_cast rounded) (ulp_pos x).le

theorem round_le_round {y : ℚ} (nonneg : 0 ≤ x) (le : x ≤ y) : round x ≤ round y := by
  rcases nonneg.eq_or_lt with rfl | pos
  · rw [round_zero]
    exact round_nonneg le
  · have pos' := pos.trans_le le
    have two_pos (e : ℤ) : (0 : ℚ) < 2 ^ e := zpow_pos (by norm_num) e
    rcases (log_mono_right pos le : log 2 x ≤ log 2 y).eq_or_lt with same | less
    · have ulp_eq : ulp x = ulp y := by rw [ulp, ulp, abs_of_pos pos, abs_of_pos pos', same]
      rw [round, round, ulp_eq]
      have divided : x / ulp y ≤ y / ulp y := div_le_div_of_nonneg_right le (ulp_pos y).le
      exact mul_le_mul_of_nonneg_right (by exact_mod_cast roundHalfEven_mono divided)
        (ulp_pos y).le
    · -- A power of two lies between them, and it is a number of the format.
      have power (e : ℤ) : (2 : ℚ) ^ e = 2 ^ 52 * 2 ^ (e - 52) := by
        rw [← zpow_natCast, ← zpow_add₀ (by norm_num)]
        congr 1
        push_cast
        ring
      have below : x / ulp x ≤ ((2 ^ 53 : ℤ) : ℚ) := by
        have bound := lt_zpow_succ_log_self (b := 2) (by norm_num) x
        rw [zpow_add₀ (by norm_num), Nat.cast_ofNat, power] at bound
        rw [div_le_iff₀ (ulp_pos x), ulp, abs_of_pos pos]
        push_cast
        linarith
      have rounded : (roundHalfEven (x / ulp x) : ℚ) ≤ 2 ^ 53 := by
        have mono := roundHalfEven_mono below
        rw [roundHalfEven_intCast] at mono
        exact_mod_cast mono
      have above : (2 : ℚ) ^ log 2 y ≤ y := by
        exact_mod_cast zpow_log_le_self (b := 2) (by norm_num) pos'
      have reached := @le_round y (log 2 y) (2 ^ 52) above
        (by exact_mod_cast lt_zpow_succ_log_self (b := 2) (by norm_num) y) (by
          rw [power] at above
          push_cast
          linarith)
      calc round x ≤ 2 ^ 53 * ulp x := mul_le_mul_of_nonneg_right rounded (ulp_pos x).le
        _ = 2 ^ (log 2 x + 1) := by
            rw [ulp, abs_of_pos pos, zpow_add₀ (by norm_num), power (log 2 x)]
            ring
        _ ≤ 2 ^ log 2 y := zpow_le_zpow_right₀ (by norm_num) less
        _ ≤ round y := by
            rw [power]
            exact_mod_cast reached

end Binary64
