import Smara.Lib.Round
import Mathlib.Data.Int.Log
import Mathlib.Tactic.Positivity

/-! # Numbers that are rounded

A number is kept with a limited number of digits: with 53 binary ones, as a double, or with 28 decimal ones.

* `Near`: the number is nearer to the integer than to any other, with a tie going to the even one.
* `halfEven_eq_iff`: rounding gives the integer that is near.
* `double`: the nearest double; `abs_double_sub_le`: it is at most half a unit of the last place away.
* `significant`: the number to a few significant digits; `significant_eq`: a number that needs no more is kept. -/

namespace Smara.Lib.Round

def Near (q : ℚ) (n : ℤ) : Prop := |q - n| < 1 / 2 ∨ |q - n| = 1 / 2 ∧ n % 2 = 0

theorem abs_halfEven_sub_le (q : ℚ) : |halfEven q - q| ≤ 1 / 2 := by
  have hle := Int.floor_le q
  have hlt := Int.lt_floor_add_one q
  rw [abs_le]
  unfold halfEven
  split_ifs with h₁ h₂ h₃
  · constructor <;> linarith
  · push_cast
    constructor <;> linarith
  · constructor <;> linarith
  · push_cast
    constructor <;> linarith

/-- **Rounding** gives the integer that is near. -/
theorem halfEven_eq_of_near {q : ℚ} {n : ℤ} (h : Near q n) : halfEven q = n := by
  have hfloor : ∀ m : ℤ, (m : ℚ) ≤ q → q < m + 1 → ⌊q⌋ = m := fun m h₁ h₂ => Int.floor_eq_iff.mpr ⟨h₁, h₂⟩
  rcases h with hlt | ⟨heq, heven⟩
  · obtain ⟨hlo, hhi⟩ := abs_lt.mp hlt
    by_cases hle : (n : ℚ) ≤ q
    · have hn := hfloor n hle (by linarith)
      unfold halfEven
      rw [hn, if_pos (by linarith)]
    · have hn := hfloor (n - 1) (by push_cast; linarith) (by push_cast; linarith)
      unfold halfEven
      rw [hn, if_neg (by push_cast; linarith), if_pos (by push_cast; linarith)]
      omega
  · rcases (abs_eq (by norm_num)).mp heq with hq | hq
    · have hn := hfloor n (by linarith) (by linarith)
      unfold halfEven
      rw [hn, if_neg (by linarith), if_neg (by linarith), if_pos heven]
    · have hn := hfloor (n - 1) (by push_cast; linarith) (by push_cast; linarith)
      unfold halfEven
      rw [hn, if_neg (by push_cast; linarith), if_neg (by push_cast; linarith), if_neg (by omega)]
      omega

/-! ### Doubles -/

def exponent (q : ℚ) : ℤ := max (Int.log 2 q - 52) (-1074)

def double (q : ℚ) : ℚ := halfEven (q / 2 ^ exponent q) * 2 ^ exponent q

theorem abs_double_sub_le (q : ℚ) : |double q - q| ≤ 2 ^ exponent q / 2 := by
  have hpos : (0 : ℚ) < 2 ^ exponent q := zpow_pos (by norm_num) _
  have hfactor : double q - q = (halfEven (q / 2 ^ exponent q) - q / 2 ^ exponent q) * 2 ^ exponent q := by
    rw [double, sub_mul, div_mul_cancel₀ q hpos.ne']
  have hround := abs_halfEven_sub_le (q / 2 ^ exponent q)
  rw [hfactor, abs_mul, abs_of_pos hpos]
  calc |halfEven (q / 2 ^ exponent q) - q / 2 ^ exponent q| * 2 ^ exponent q
      ≤ 1 / 2 * 2 ^ exponent q := mul_le_mul_of_nonneg_right hround hpos.le
    _ = 2 ^ exponent q / 2 := by ring

theorem exponent_le {q : ℚ} {k : ℤ} (hpos : 0 < q) (h : q < 2 ^ k) (hk : -1021 ≤ k) : exponent q ≤ k - 53 := by
  have hlog : Int.log 2 q < k := (Int.lt_zpow_iff_log_lt (by norm_num) hpos).mp (by exact_mod_cast h)
  unfold exponent
  omega

theorem abs_double_sub_le_of_lt {q : ℚ} {k : ℤ} (hpos : 0 < q) (h : q < 2 ^ k) (hk : -1021 ≤ k) :
    |double q - q| ≤ 2 ^ (k - 53) / 2 := by
  have hle : (2 : ℚ) ^ exponent q ≤ 2 ^ (k - 53) := zpow_le_zpow_right₀ (by norm_num) (exponent_le hpos h hk)
  have := abs_double_sub_le q
  linarith

theorem abs_double_sub_le_mul {q : ℚ} (h : 1 ≤ q) : |double q - q| ≤ q / 2 ^ 53 := by
  have hlog : 0 ≤ Int.log 2 q := (Int.log_one_right (R := ℚ) 2).symm.le.trans (Int.log_mono_right one_pos h)
  have hexponent : exponent q = Int.log 2 q + -52 := by
    unfold exponent
    omega
  have hle : ((2 : ℕ) : ℚ) ^ Int.log 2 q ≤ q := Int.zpow_log_le_self (by norm_num) (one_pos.trans_le h)
  have hsplit : (2 : ℚ) ^ exponent q = 2 ^ Int.log 2 q / 2 ^ 52 := by
    rw [hexponent, zpow_add₀ (by norm_num)]
    rfl
  have hround := abs_double_sub_le q
  rw [hsplit] at hround
  push_cast at hle
  calc |double q - q| ≤ 2 ^ Int.log 2 q / 2 ^ 52 / 2 := hround
    _ ≤ q / 2 ^ 52 / 2 := by gcongr
    _ = q / 2 ^ 53 := by ring

/-! ### Significant digits -/

/-- The number without the digits after the first `d`, rounded. -/
def significant (d n : ℕ) : ℤ :=
  let e := Nat.log 10 n + 1 - d
  halfEven (n / 10 ^ e) * 10 ^ e

/-- A number of at most `d` significant digits. -/
def Significant (d n : ℕ) : Prop := 10 ^ (Nat.log 10 n + 1 - d) ∣ n

theorem significant_eq {d n : ℕ} (h : Significant d n) : significant d n = n := by
  obtain ⟨m, hm⟩ := h
  unfold significant
  generalize hexp : Nat.log 10 n + 1 - d = e at hm
  have hquotient : (n : ℚ) / 10 ^ e = (m : ℤ) := by
    have hne : (10 : ℚ) ^ e ≠ 0 := by positivity
    rw [hm]
    push_cast
    field_simp
  simp only [hquotient, halfEven_intCast]
  rw [hm]
  push_cast
  ring

theorem Significant.mul_hundred {d n : ℕ} (h : Significant d n) : Significant d (n * 100) := by
  by_cases hn : n = 0
  · rw [hn]
    exact dvd_zero _
  · have hlog : Nat.log 10 (n * 100) = Nat.log 10 n + 2 := by
      have hsplit : n * 100 = n * 10 * 10 := by omega
      rw [hsplit, Nat.log_mul_base (by decide) (by omega), Nat.log_mul_base (by decide) hn]
    have hpow : 10 ^ (Nat.log 10 (n * 100) + 1 - d) ∣ 10 ^ (Nat.log 10 n + 1 - d) * 10 ^ 2 := by
      rw [← pow_add, hlog]
      exact pow_dvd_pow 10 (by omega)
    exact hpow.trans (Nat.mul_dvd_mul_right h 100)

theorem significant_of_lt {d n : ℕ} (h : n < 10 ^ d) (hn : n ≠ 0) : Significant d n := by
  have hlog : Nat.log 10 n < d := (Nat.log_lt_iff_lt_pow (by norm_num) hn).mpr h
  have hzero : Nat.log 10 n + 1 - d = 0 := by omega
  unfold Significant
  rw [hzero, pow_zero]
  exact one_dvd n

end Smara.Lib.Round
