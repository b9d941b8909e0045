import Mathlib.Data.Int.Log
import Mathlib.Data.Rat.Floor
import Mathlib.Tactic.Linarith
import Mathlib.Tactic.Positivity
import Mathlib.Tactic.FieldSimp
import Mathlib.Tactic.Ring

/-!
# Rounding to a double

A double is a rational with a significand of 53 bits. `round` takes a rational
to the nearest one, and to the one with the even significand of two that are
equally near; the exponent's range is left out.
-/

namespace Doubles

def roundEven (q : ℚ) : ℤ :=
  if q - ⌊q⌋ < 1 / 2 then ⌊q⌋
  else if 1 / 2 < q - ⌊q⌋ then ⌊q⌋ + 1
  else if ⌊q⌋ % 2 = 0 then ⌊q⌋ else ⌊q⌋ + 1

theorem roundEven_near (q : ℚ) : |q - roundEven q| ≤ 1 / 2 := by
  have h0 := Int.floor_le q
  have h1 := Int.lt_floor_add_one q
  unfold roundEven
  rw [abs_le]
  split
  · constructor <;> linarith
  · split
    · push_cast; constructor <;> linarith
    · split
      · constructor <;> linarith
      · push_cast; constructor <;> linarith

theorem roundEven_intCast (n : ℤ) : roundEven n = n := by
  simp [roundEven]

theorem roundEven_nonneg {q : ℚ} (h : 0 ≤ q) : 0 ≤ roundEven q := by
  have hn := (abs_le.1 (roundEven_near q)).2
  have : (-1 : ℚ) < roundEven q := by linarith
  have : -1 < roundEven q := by exact_mod_cast this
  omega

theorem roundEven_nonpos {q : ℚ} (h : q ≤ 0) : roundEven q ≤ 0 := by
  have hn := (abs_le.1 (roundEven_near q)).1
  have : (roundEven q : ℚ) < 1 := by linarith
  have : roundEven q < 1 := by exact_mod_cast this
  omega

/-- The distance of two neighbouring doubles at a positive `q`. -/
def ulp (q : ℚ) : ℚ := 2 ^ (Int.log 2 q - 52)

theorem ulp_pos (q : ℚ) : 0 < ulp q := zpow_pos (by norm_num) _

theorem ulp_le {q : ℚ} (h : 0 < q) : ulp q ≤ q / 2 ^ 52 := by
  have hl : (2 : ℚ) ^ Int.log 2 q ≤ q := by
    have := Int.zpow_log_le_self (b := 2) (by decide) h
    exact_mod_cast this
  unfold ulp
  rw [zpow_sub₀ (by norm_num)]
  apply div_le_div_of_nonneg_right _ (by positivity)
  exact hl

def round (q : ℚ) : ℚ := roundEven (q / ulp |q|) * ulp |q|

@[simp] theorem round_zero : round 0 = 0 := by simp [round, roundEven]

/-- **A rounding moves a value by at most one part in `2 ^ 53`.** -/
theorem round_error (q : ℚ) : |q - round q| ≤ |q| / 2 ^ 53 := by
  by_cases h0 : q = 0
  · subst h0; simp
  have hu := ulp_pos |q|
  have hl := ulp_le (abs_pos.2 h0)
  have hn := roundEven_near (q / ulp |q|)
  have he : q - round q = (q / ulp |q| - roundEven (q / ulp |q|)) * ulp |q| := by
    unfold round; field_simp
  rw [he, abs_mul, abs_of_pos hu]
  calc |q / ulp |q| - roundEven (q / ulp |q|)| * ulp |q|
      ≤ 1 / 2 * ulp |q| := mul_le_mul_of_nonneg_right hn hu.le
    _ ≤ 1 / 2 * (|q| / 2 ^ 52) := mul_le_mul_of_nonneg_left hl (by norm_num)
    _ = |q| / 2 ^ 53 := by ring

theorem round_nonneg {q : ℚ} (h : 0 ≤ q) : 0 ≤ round q := by
  have hr := roundEven_nonneg (div_nonneg h (ulp_pos |q|).le)
  exact mul_nonneg (by exact_mod_cast hr) (ulp_pos |q|).le

theorem round_nonpos {q : ℚ} (h : q ≤ 0) : round q ≤ 0 := by
  have hr := roundEven_nonpos (div_nonpos_of_nonpos_of_nonneg h (ulp_pos |q|).le)
  exact mul_nonpos_of_nonpos_of_nonneg (by exact_mod_cast hr) (ulp_pos |q|).le

theorem round_le {q : ℚ} (h : 0 ≤ q) : round q ≤ q * (1 + 1 / 2 ^ 53) := by
  have he := (abs_le.1 (round_error q)).1
  rw [abs_of_nonneg h] at he
  linarith

theorem le_round {q : ℚ} (h : 0 ≤ q) : q * (1 - 1 / 2 ^ 53) ≤ round q := by
  have he := (abs_le.1 (round_error q)).2
  rw [abs_of_nonneg h] at he
  linarith

theorem round_natCast {n : ℕ} (h : n < 2 ^ 53) : round n = n := by
  rcases n.eq_zero_or_pos with rfl | hn
  · simp
  have hlog : Int.log 2 (n : ℚ) = (Nat.log 2 n : ℤ) := Int.log_natCast 2 n
  have hle : Nat.log 2 n ≤ 52 := by
    have := Nat.log_lt_of_lt_pow (by omega) h
    omega
  have hscale : (n : ℚ) / ulp n = ((n * 2 ^ (52 - Nat.log 2 n) : ℕ) : ℤ) := by
    unfold ulp
    rw [hlog, div_eq_mul_inv, ← zpow_neg]
    have : -((Nat.log 2 n : ℤ) - 52) = ((52 - Nat.log 2 n : ℕ) : ℤ) := by omega
    rw [this, zpow_natCast]
    push_cast
    rfl
  have habs : |(n : ℚ)| = n := abs_of_nonneg (Nat.cast_nonneg n)
  unfold round
  rw [habs, hscale, roundEven_intCast, ← hscale, div_mul_cancel₀ _ (ulp_pos _).ne']

end Doubles
