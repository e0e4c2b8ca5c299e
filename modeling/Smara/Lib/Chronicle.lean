import Smara.Lib.Machine

/-! # Chronicles

A chronicle is the list of the events that have happened, in their order. A law says of an event
whether it may come after the events before it, and a chronicle is lawful if each of its events may
come where it stands.

* `lawful_append`, `lawful_snoc`: what later events have to meet.
* `Lawful.of_append`: what has been broken is never mended by later events.
* `lawful_run_iff`: the chronicle that a machine keeps is lawful exactly when each of its calls meets a
  condition. -/

namespace Smara.Lib.Chronicle

open Lib.Machine

variable {ε : Type*} {law : List ε → ε → Prop} {l l' : List ε} {e : ε}

def Lawful (law : List ε → ε → Prop) (l : List ε) : Prop :=
  ∀ pre e post, l = pre ++ e :: post → law pre e

theorem lawful_nil : Lawful law [] := by
  intro pre e post h
  simp at h

theorem Lawful.of_append (h : Lawful law (l ++ l')) : Lawful law l := by
  rintro pre e post rfl
  exact h pre e (post ++ l') (by simp)

theorem lawful_append : Lawful law (l ++ l') ↔
    Lawful law l ∧ ∀ pre e post, l' = pre ++ e :: post → law (l ++ pre) e := by
  constructor
  · intro h
    refine ⟨h.of_append, ?_⟩
    rintro pre e post rfl
    exact h (l ++ pre) e post (by simp)
  · rintro ⟨hl, hl'⟩ pre e post heq
    rcases List.append_eq_append_iff.mp heq with ⟨mid, rfl, hmid⟩ | ⟨mid, rfl, hmid⟩
    · exact hl' mid e post hmid
    · cases mid with
      | nil =>
        have := hl' [] e post (by simpa using hmid.symm)
        simpa using this
      | cons e' mid =>
        obtain ⟨rfl, -⟩ := List.cons.inj hmid
        exact hl pre e mid rfl

theorem lawful_snoc : Lawful law (l ++ [e]) ↔ Lawful law l ∧ law l e := by
  rw [lawful_append]
  refine and_congr_right fun _ => ?_
  constructor
  · intro h
    simpa using h [] e [] rfl
  · intro h pre e' post heq
    cases pre with
    | nil =>
      obtain ⟨rfl, -⟩ := List.cons.inj heq
      simpa using h
    | cons a pre => simp at heq

theorem lawful_append_of_forall (h : ∀ e ∈ l', ∀ pre, law pre e) : Lawful law (l ++ l') ↔ Lawful law l := by
  rw [lawful_append]
  refine and_iff_left ?_
  rintro pre e post rfl
  exact h e (by simp) _

/-- **Exact conditions.** If under the invariant a call keeps the chronicle lawful exactly when it meets the guard,
the same holds of runs. -/
theorem lawful_run_iff {σ α : Type*} {step : σ → α → σ} {L : σ → List ε} {I : σ → Prop} {G : σ → α → Prop}
    (hI : ∀ s a, I s → I (step s a))
    (hlaw : ∀ s a, I s → (Lawful law (L (step s a)) ↔ Lawful law (L s) ∧ G s a)) {s : σ} {as : List α}
    (h : I s) : Lawful law (L (run step s as)) ↔ Lawful law (L s) ∧ Along step G s as := by
  induction as generalizing s with
  | nil => simp
  | cons a as ih => rw [run_cons, ih (hI s a h), hlaw s a h, along_cons, and_assoc]

end Smara.Lib.Chronicle
