import Mathlib.Data.List.Perm.Subperm

/-! # Workers that hold things

Workers in a list, each of which holds some things. What all of them hold is the concatenation.

* `getElem?_set_iff`, `getElem?_concat_iff`: the workers when one has gone on, or has come.
* `flatMap_set`: what is held when one worker has gone on. -/

namespace Smara.Lib.Workers

variable {δ ρ : Type*}

theorem exists_split {l : List δ} {i : ℕ} {d : δ} (h : l[i]? = some d) :
    ∃ pre post, l = pre ++ d :: post ∧ ∀ d', l.set i d' = pre ++ d' :: post := by
  induction l generalizing i with
  | nil => simp at h
  | cons a l ih =>
    cases i with
    | zero =>
      obtain rfl : a = d := by simpa using h
      exact ⟨[], l, rfl, fun d' => rfl⟩
    | succ i =>
      obtain ⟨pre, post, rfl, hset⟩ := ih (by simpa using h)
      exact ⟨a :: pre, post, rfl, fun d' => by simp [hset d']⟩

theorem getElem?_set_iff {l : List δ} {i j : ℕ} {d d' x : δ} (h : l[i]? = some d) :
    (l.set i d')[j]? = some x ↔ (j = i ∧ x = d') ∨ (j ≠ i ∧ l[j]? = some x) := by
  by_cases hj : j = i
  · subst hj
    rw [List.getElem?_set_self (List.getElem?_eq_some_iff.mp h).1]
    simp [eq_comm]
  · rw [List.getElem?_set_ne (Ne.symm hj)]
    simp [hj]

theorem getElem?_concat_iff {l : List δ} {j : ℕ} {d x : δ} :
    (l ++ [d])[j]? = some x ↔ l[j]? = some x ∨ (j = l.length ∧ x = d) := by
  rcases Nat.lt_trichotomy j l.length with hlt | rfl | hgt
  · rw [List.getElem?_append_left hlt]
    simp [Nat.ne_of_lt hlt]
  · simp [eq_comm]
  · have hne : j ≠ l.length := Nat.ne_of_gt hgt
    rw [List.getElem?_eq_none (by simp; omega), List.getElem?_eq_none (by omega)]
    simp [hne]

/-- **What is held**: the things of one worker and those of the others, which do not change when it goes on. -/
theorem flatMap_set (held : δ → List ρ) {l : List δ} {i : ℕ} {d : δ} (h : l[i]? = some d) :
    ∃ others, (l.flatMap held).Perm (held d ++ others) ∧
      ∀ d', ((l.set i d').flatMap held).Perm (held d' ++ others) := by
  obtain ⟨pre, post, rfl, hset⟩ := exists_split h
  refine ⟨pre.flatMap held ++ post.flatMap held, ?_, fun d' => ?_⟩
  · simp only [List.flatMap_append, List.flatMap_cons]
    exact List.perm_append_comm_assoc ..
  · rw [hset]
    simp only [List.flatMap_append, List.flatMap_cons]
    exact List.perm_append_comm_assoc ..

theorem subperm_set {held : δ → List ρ} {l : List δ} {i : ℕ} {d d' : δ} (h : l[i]? = some d)
    (hd : (held d').Subperm (held d)) : ((l.set i d').flatMap held).Subperm (l.flatMap held) := by
  obtain ⟨others, hold, hnew⟩ := flatMap_set held h
  exact (hnew d').subperm.trans (((List.subperm_append_right others).mpr hd).trans hold.symm.subperm)

theorem nodup_of_subperm {κ : Type*} {key : ρ → κ} {l l' : List ρ} (h : (l'.map key).Nodup) (hl : l.Subperm l') :
    (l.map key).Nodup := by
  obtain ⟨m, hperm, hsub⟩ := hl
  exact ((hperm.map _).nodup_iff).mp (h.sublist (hsub.map _))

end Smara.Lib.Workers
