import Smara.Lib.Machine

/-! # Threads that share a state

A configuration is a shared state with the phase of each thread. A schedule is a list of threads: each
takes a turn, which reads and writes the shared state and moves the thread to its next phase. Runs of
schedules are runs of the machine `step turn`.

`winner_unique` is the rule for what may happen once: if every thread wins in a turn that finds the
prize open and closes it, and no turn opens it again, at most one thread wins. -/

namespace Smara.Lib.Threads

open Lib.Machine

variable {σ φ : Type*}

structure Config (σ φ : Type*) where
  shared : σ
  phase : ℕ → φ

variable (turn : ℕ → σ → φ → σ × φ)

/-- The configuration after a turn of the thread `i`. -/
def step (c : Config σ φ) (i : ℕ) : Config σ φ :=
  let r := turn i c.shared (c.phase i)
  ⟨r.1, Function.update c.phase i r.2⟩

variable {turn} {c : Config σ φ} {i j : ℕ}

@[simp] theorem step_shared : (step turn c i).shared = (turn i c.shared (c.phase i)).1 := rfl

@[simp] theorem step_phase_self : (step turn c i).phase i = (turn i c.shared (c.phase i)).2 := by
  simp [step]

theorem step_phase_of_ne (h : j ≠ i) : (step turn c i).phase j = c.phase j := by
  simp [step, Function.update_of_ne h]

/-- At most one thread has won, and none while the prize is open. -/
structure OneWinner (Open : σ → Prop) (Won : φ → Prop) (c : Config σ φ) : Prop where
  unique : ∀ i j, Won (c.phase i) → Won (c.phase j) → i = j
  unclaimed : Open c.shared → ∀ i, ¬ Won (c.phase i)

variable {Open : σ → Prop} {Won : φ → Prop}

theorem OneWinner.step (h : OneWinner Open Won c)
    (hwin : Won (turn i c.shared (c.phase i)).2 → Won (c.phase i) ∨
      (Open c.shared ∧ ¬ Open (turn i c.shared (c.phase i)).1))
    (hclosed : ¬ Open c.shared → ¬ Open (turn i c.shared (c.phase i)).1) :
    OneWinner Open Won (Threads.step turn c i) := by
  have hwon : ∀ j, Won ((Threads.step turn c i).phase j) →
      Won (c.phase j) ∨ (j = i ∧ Open c.shared ∧ ¬ Open (Threads.step turn c i).shared) := by
    intro j hj
    by_cases hji : j = i
    · subst hji
      rw [step_phase_self] at hj
      exact (hwin hj).imp_right fun h => ⟨rfl, h⟩
    · rw [step_phase_of_ne hji] at hj
      exact Or.inl hj
  refine ⟨fun j k hj hk => ?_, fun hopen j hj => ?_⟩
  · rcases hwon j hj with hj | ⟨hji, hopen, -⟩
    · rcases hwon k hk with hk | ⟨-, hopen, -⟩
      · exact h.unique j k hj hk
      · exact absurd hj (h.unclaimed hopen j)
    · rcases hwon k hk with hk | ⟨hki, -, -⟩
      · exact absurd hk (h.unclaimed hopen k)
      · rw [hji, hki]
  · have hwas : Open c.shared := by
      by_contra hc
      exact hclosed hc hopen
    rcases hwon j hj with hj | ⟨-, -, hj⟩
    · exact h.unclaimed hwas j hj
    · exact hj hopen

/-- **At most one winner**, along a run whose turns satisfy `G` and keep the invariant `I`. -/
theorem winner_unique {I : Config σ φ → Prop} {G : Config σ φ → ℕ → Prop}
    (hI : ∀ c i, I c → G c i → I (step turn c i))
    (hwin : ∀ c i, I c → G c i → Won (turn i c.shared (c.phase i)).2 → Won (c.phase i) ∨
      (Open c.shared ∧ ¬ Open (turn i c.shared (c.phase i)).1))
    (hclosed : ∀ c i, I c → G c i → ¬ Open c.shared → ¬ Open (turn i c.shared (c.phase i)).1)
    {is : List ℕ} (h₀ : I c) (hnone : ∀ i, ¬ Won (c.phase i)) (hG : Along (step turn) G c is) :
    OneWinner Open Won (run (step turn) c is) := by
  have hrun := inv_run (I := fun c => I c ∧ OneWinner Open Won c)
    (fun c i h hg => ⟨hI c i h.1 hg, h.2.step (hwin c i h.1 hg) (hclosed c i h.1 hg)⟩)
    ⟨h₀, fun i _ hi => absurd hi (hnone i), fun _ => hnone⟩ hG
  exact hrun.2

end Smara.Lib.Threads
