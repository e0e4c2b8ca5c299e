import Mathlib.Data.Rat.Floor

/-! # Rounding half to even

* `halfEven`: the nearest integer, and of two nearest ones the even one.
* `halfEven_le`, `le_halfEven`: it does not pass an integer. -/

namespace Smara.Lib.Round

/-- The nearest integer, a tie going to the even one. -/
def halfEven (q : ℚ) : ℤ :=
  if q - ⌊q⌋ < 1 / 2 then ⌊q⌋
  else if 1 / 2 < q - ⌊q⌋ then ⌊q⌋ + 1
  else if ⌊q⌋ % 2 = 0 then ⌊q⌋
  else ⌊q⌋ + 1

theorem halfEven_cases (q : ℚ) : halfEven q = ⌊q⌋ ∨ halfEven q = ⌊q⌋ + 1 ∧ (⌊q⌋ : ℚ) < q := by
  unfold halfEven
  split_ifs with h₁ h₂ h₃
  · exact Or.inl rfl
  · exact Or.inr ⟨rfl, by linarith⟩
  · exact Or.inl rfl
  · exact Or.inr ⟨rfl, by linarith⟩

theorem halfEven_le {q : ℚ} {n : ℤ} (h : q ≤ n) : halfEven q ≤ n := by
  have hfloor : ⌊q⌋ ≤ n := by exact_mod_cast (Int.floor_le q).trans h
  rcases halfEven_cases q with heq | ⟨heq, hlt⟩
  · rw [heq]
    exact hfloor
  · rw [heq]
    have hlt : ⌊q⌋ < n := by exact_mod_cast hlt.trans_le h
    omega

theorem le_halfEven {q : ℚ} {n : ℤ} (h : (n : ℚ) ≤ q) : n ≤ halfEven q := by
  have hfloor : n ≤ ⌊q⌋ := Int.le_floor.mpr h
  rcases halfEven_cases q with heq | ⟨heq, -⟩
  · omega
  · omega

@[simp] theorem halfEven_intCast (n : ℤ) : halfEven n = n :=
  le_antisymm (halfEven_le le_rfl) (le_halfEven le_rfl)

end Smara.Lib.Round
