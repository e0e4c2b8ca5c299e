import Mathlib.Data.List.Basic
import Mathlib.Order.Lattice

/-! # Sliding windows

What is admitted leaves a stamp: for whom, and when. A stamp counts for a while, which `within x t` says of
the stamp `x` at the time `t`.

* `counted`: the stamps of the window that ends at a time.
* `Bounded`: no window has more than the limit.
* `bounded_cons`: a stamp that is given when fewer than the limit count keeps every window bounded, also
  those that end later. -/

namespace Smara.Lib.Window

variable {κ τ : Type*} [DecidableEq κ] [LinearOrder τ] (within : τ → τ → Prop) [DecidableRel within]

/-- The stamps of `k` in the window that ends at `t`. -/
def counted (k : κ) (t : τ) (xs : List (κ × τ)) : ℕ := xs.countP fun x => x.1 = k ∧ x.2 ≤ t ∧ within x.2 t

def Bounded (limit : ℕ) (xs : List (κ × τ)) : Prop := ∀ k t, counted within k t xs ≤ limit

variable {within} {limit : ℕ} {xs ys : List (κ × τ)} {k : κ} {a : τ}

theorem bounded_nil : Bounded within limit ([] : List (κ × τ)) := fun _ _ => Nat.zero_le _

theorem Bounded.perm (h : Bounded within limit xs) (hp : xs.Perm ys) : Bounded within limit ys := by
  intro k t
  have hcount : counted within k t ys = counted within k t xs := (hp.countP_eq _).symm
  have hxs := h k t
  omega

/-- **A stamp that is given while there is room.** -/
theorem bounded_cons (hmono : ∀ x y t, x ≤ y → y ≤ t → within x t → within x y)
    (h : Bounded within limit xs) (hpast : ∀ x ∈ xs, x.2 ≤ a)
    (hroom : xs.countP (fun x => x.1 = k ∧ within x.2 a) < limit) : Bounded within limit ((k, a) :: xs) := by
  intro k' t
  have hxs := h k' t
  unfold counted at hxs ⊢
  rw [List.countP_cons]
  split_ifs with hnew
  · simp only [decide_eq_true_eq] at hnew
    obtain ⟨rfl, hat, -⟩ := hnew
    -- a stamp of this window counts when the new one is given
    have hle : xs.countP (fun x => x.1 = k ∧ x.2 ≤ t ∧ within x.2 t) ≤
        xs.countP (fun x => x.1 = k ∧ within x.2 a) := by
      refine List.countP_mono_left fun x hx hcounts => ?_
      simp only [decide_eq_true_eq] at hcounts ⊢
      exact ⟨hcounts.1, hmono _ _ _ (hpast x hx) hat hcounts.2.2⟩
    omega
  · omega

end Smara.Lib.Window
