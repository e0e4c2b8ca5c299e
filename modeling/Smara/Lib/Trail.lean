import Mathlib.Data.List.Basic

/-! # Trails

A log of moves, each with the state that it leaves, if any, and the state that it enters. A trail is a log
in which each move leaves the state that the one before has entered.

* `Trail`: from a state, or from none, to another.
* `trail_append`, `trail_snoc`: a log in two parts. -/

namespace Smara.Lib.Trail

variable {S : Type*}

/-- The moves lead from `s` to `t`. -/
def Trail (s : Option S) : List (Option S × S) → Option S → Prop
  | [], t => s = t
  | m :: ms, t => m.1 = s ∧ Trail (some m.2) ms t

instance decidableTrail [DecidableEq S] : ∀ (s : Option S) (ms : List (Option S × S)) (t : Option S),
    Decidable (Trail s ms t)
  | _, [], _ => inferInstanceAs (Decidable (_ = _))
  | _, m :: ms, t =>
    have := decidableTrail (some m.2) ms t
    inferInstanceAs (Decidable (_ ∧ _))

variable {s t : Option S} {ms ms' : List (Option S × S)} {m : Option S × S}

theorem trail_append : Trail s (ms ++ ms') t ↔ ∃ u, Trail s ms u ∧ Trail u ms' t := by
  induction ms generalizing s with
  | nil => simp [Trail]
  | cons m ms ih => simp [Trail, ih, and_assoc]

theorem trail_snoc : Trail s (ms ++ [m]) t ↔ Trail s ms m.1 ∧ some m.2 = t := by
  rw [trail_append]
  constructor
  · rintro ⟨u, hms, rfl, hend⟩
    exact ⟨hms, hend⟩
  · rintro ⟨hms, hend⟩
    exact ⟨m.1, hms, rfl, hend⟩

theorem Trail.unique {u : Option S} (h : Trail s ms t) (h' : Trail s ms u) : t = u := by
  induction ms generalizing s with
  | nil => exact h.symm.trans h'
  | cons m ms ih => exact ih h.2 h'.2

end Smara.Lib.Trail
