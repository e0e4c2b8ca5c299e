import Mathlib.Data.List.Basic
import Mathlib.Data.List.Induction

/-! # Overwriting

A write hits some of the rows, and sets fields of them; a later write that hits the row sets the same fields again.
So of a list of writes only the last that hits a row is left of it.

* `writeAll_of_last`: what a list of writes leaves of a row.
* `Fixed`: the rows that a list of writes leaves as they are.
* `Fixed.snoc`, `fixed_of_set`: the rows that were just written are such rows, so that the same writes in the same
  order may be repeated. -/

namespace Smara.Lib.Overwrite

variable {α ρ : Type*}

structure Writes (α ρ : Type*) where
  hits : α → ρ → Prop
  set : α → ρ → ρ
  hits_set : ∀ a b r, hits b (set a r) ↔ hits b r
  set_set : ∀ a b r, set b (set a r) = set b r

variable {w : Writes α ρ} [∀ a r, Decidable (w.hits a r)] {a : α} {as : List α} {r : ρ}

variable (w) in
def write (a : α) (r : ρ) : ρ := if w.hits a r then w.set a r else r

variable (w) in
def writeAll (as : List α) (r : ρ) : ρ := as.foldl (fun r a => write w a r) r

variable (w) in
/-- The writes leave the row as it is. -/
def Fixed (as : List α) (r : ρ) : Prop := writeAll w as r = r

theorem writeAll_snoc : writeAll w (as ++ [a]) r = write w a (writeAll w as r) := by
  simp [writeAll]

/-- **The last write.** Of the writes that hit a row, the last one is left. -/
theorem writeAll_of_last : writeAll w as r =
    match (as.filter fun a => w.hits a r).getLast? with
    | some a => w.set a r
    | none => r := by
  induction as using List.reverseRecOn with
  | nil => rfl
  | append_singleton as a ih =>
    rw [writeAll_snoc, ih, List.filter_append]
    by_cases ha : w.hits a r
    · have hlast : [a].filter (fun a => w.hits a r) = [a] := by simp [ha]
      rw [hlast, List.getLast?_append_of_ne_nil _ (by simp), List.getLast?_singleton]
      dsimp only
      split
      · rw [write, if_pos ((w.hits_set _ _ _).mpr ha), w.set_set]
      · rw [write, if_pos ha]
    · have hlast : [a].filter (fun a => w.hits a r) = [] := by simp [ha]
      rw [hlast, List.append_nil]
      split
      · exact if_neg fun h => ha ((w.hits_set _ _ _).mp h)
      · exact if_neg ha

theorem hits_writeAll : w.hits a (writeAll w as r) ↔ w.hits a r := by
  rw [writeAll_of_last]
  split
  · exact w.hits_set _ _ _
  · rfl

theorem set_writeAll : w.set a (writeAll w as r) = w.set a r := by
  rw [writeAll_of_last]
  split
  · exact w.set_set _ _ _
  · rfl

theorem fixed_of_set (hhits : w.hits a r) (hset : w.set a r = r) : Fixed w (as ++ [a]) r := by
  unfold Fixed
  rw [writeAll_snoc, write, if_pos (hits_writeAll.mpr hhits), set_writeAll, hset]

theorem Fixed.snoc (h : Fixed w as r) : Fixed w (as ++ [a]) (write w a r) := by
  by_cases ha : w.hits a r
  · rw [write, if_pos ha]
    exact fixed_of_set ((w.hits_set _ _ _).mpr ha) (w.set_set _ _ _)
  · rw [write, if_neg ha]
    unfold Fixed at h ⊢
    rw [writeAll_snoc, h, write, if_neg ha]

/-- **The last write that hits the row says what the row has.** -/
theorem fixed_iff_last : Fixed w as r ↔
    ∀ pre a post, as = pre ++ a :: post → w.hits a r → (∀ b ∈ post, ¬ w.hits b r) → w.set a r = r := by
  unfold Fixed
  rw [writeAll_of_last]
  constructor
  · rintro h pre a post rfl ha hpost
    have hnil : post.filter (fun b => w.hits b r) = [] := by simpa using hpost
    rw [List.filter_append, List.filter_cons, if_pos (decide_eq_true ha), hnil, List.getLast?_concat] at h
    exact h
  · intro h
    split
    · next a hlast =>
      obtain ⟨ys, hys⟩ := List.getLast?_eq_some_iff.mp hlast
      obtain ⟨l₁, l₂, rfl, -, hl₂⟩ := List.filter_eq_append_iff.mp hys
      obtain ⟨l₃, post, rfl, -, ha, hpost⟩ := List.filter_eq_cons_iff.mp hl₂
      refine h (l₁ ++ l₃) a post (List.append_assoc ..).symm (of_decide_eq_true ha) fun b hb hhits => ?_
      exact List.filter_eq_nil_iff.mp hpost b hb (decide_eq_true hhits)
    · rfl

theorem writeAll_of_not_hits (h : ∀ a ∈ as, ¬ w.hits a r) : writeAll w as r = r := by
  have hnil : as.filter (fun a => w.hits a r) = [] := by simpa using h
  rw [writeAll_of_last, hnil]
  rfl

end Smara.Lib.Overwrite
