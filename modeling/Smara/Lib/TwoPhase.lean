import Smara.Lib.Threads

/-! # Calls that check and then write

A `CheckedCall` checks a state and, in a later atomic turn, writes on the strength of what the check
has read. Threads that make such calls interleave their turns.

* `run_alone`: without interleaving, the two turns are the call itself.
* `winner_unique_of_fresh`: at most one thread wins if a winning write closes what it wins, and every
  winning write finds it open. A write that tests this itself is always `Fresh`; one that does not is
  where it `FindsOpen`. -/

namespace Smara.Lib.TwoPhase

open Lib.Machine Lib.Threads

/-- A call in its two turns: the check ends it with an answer or passes what it has read to the write. -/
structure CheckedCall (σ ρ α : Type*) where
  check : σ → Except α ρ
  write : ρ → σ → α × σ

/-- Where a thread stands. -/
inductive Phase (ρ α : Type*)
  | ready
  | checked (row : ρ)
  | done (answer : α)
  deriving DecidableEq

variable {σ ρ α : Type*}

/-- The turn of the thread `i`, which makes the call `calls i`. -/
def turn (calls : ℕ → CheckedCall σ ρ α) (i : ℕ) (s : σ) : Phase ρ α → σ × Phase ρ α
  | .ready =>
    match (calls i).check s with
    | .error a => (s, .done a)
    | .ok row => (s, .checked row)
  | .checked row =>
    let r := (calls i).write row s
    (r.2, .done r.1)
  | .done a => (s, .done a)

def start (s : σ) : Config σ (Phase ρ α) := ⟨s, fun _ => .ready⟩

def Answered (Won : α → Prop) : Phase ρ α → Prop
  | .done a => Won a
  | _ => False

instance (Won : α → Prop) [DecidablePred Won] (p : Phase ρ α) : Decidable (Answered Won p) := by
  cases p <;> unfold Answered <;> infer_instance

variable {calls : ℕ → CheckedCall σ ρ α} {c : Config σ (Phase ρ α)} {i : ℕ}

theorem turn_ready {s : σ} : (turn calls i s .ready).1 = s := by
  simp only [turn]
  split <;> rfl

def AtMostOne (Won : α → Prop) (c : Config σ (Phase ρ α)) : Prop :=
  ∀ i j, Answered Won (c.phase i) → Answered Won (c.phase j) → i = j

/-- A thread that writes finds the prize open. -/
def FindsOpen (Open : σ → Prop) (c : Config σ (Phase ρ α)) (i : ℕ) : Prop :=
  match c.phase i with
  | .checked _ => Open c.shared
  | _ => True

instance (Open : σ → Prop) [DecidablePred Open] (c : Config σ (Phase ρ α)) (i : ℕ) :
    Decidable (FindsOpen Open c i) := by
  unfold FindsOpen
  split <;> infer_instance

/-- A thread whose write wins finds the prize open. -/
def Fresh (calls : ℕ → CheckedCall σ ρ α) (Open : σ → Prop) (Won : α → Prop)
    (c : Config σ (Phase ρ α)) (i : ℕ) : Prop :=
  ∀ row, c.phase i = .checked row → Won ((calls i).write row c.shared).1 → Open c.shared

theorem fresh_of_findsOpen {Open : σ → Prop} {Won : α → Prop} {is : List ℕ}
    (h : Along (step (turn calls)) (FindsOpen Open) c is) :
    Along (step (turn calls)) (Fresh calls Open Won) c is :=
  h.mono fun c i hopen row hrow _ => by
    unfold FindsOpen at hopen
    rw [hrow] at hopen
    exact hopen

/-- **At most one call wins**, in a run whose winning writes find the prize open. -/
theorem winner_unique_of_fresh {Open : σ → Prop} {Won : α → Prop}
    (hrefuse : ∀ i s a, (calls i).check s = .error a → ¬ Won a)
    (hclose : ∀ i row s, Won ((calls i).write row s).1 → ¬ Open ((calls i).write row s).2)
    (hkeep : ∀ i row s, ¬ Open s → ¬ Open ((calls i).write row s).2) {s : σ} {is : List ℕ}
    (hG : Along (step (turn calls)) (Fresh calls Open Won) (start s) is) :
    AtMostOne Won (run (step (turn calls)) (start s) is) := by
  have hone : OneWinner Open (Answered Won) (run (step (turn calls)) (start s) is) := by
    refine winner_unique (I := fun _ => True) (fun _ _ _ _ => trivial)
      (fun c i _ hfresh hwon => ?_) (fun c i _ _ hclosed => ?_) trivial (fun _ => id) hG
    · cases hp : c.phase i with
      | ready =>
        rw [hp, turn] at hwon
        split at hwon
        · next a ha => exact absurd hwon (hrefuse i _ a ha)
        · exact hwon.elim
      | checked row =>
        rw [hp] at hwon
        exact Or.inr ⟨hfresh row hp hwon, hclose i row _ hwon⟩
      | done a =>
        rw [hp] at hwon
        exact Or.inl hwon
    · cases hp : c.phase i with
      | ready =>
        rw [turn_ready]
        exact hclosed
      | checked row => exact hkeep i row _ hclosed
      | done a => exact hclosed
  exact hone.unique

end Smara.Lib.TwoPhase
