import Mathlib.Data.List.Basic

/-! # Loops that stop where they raise

A loop goes through a list, and each turn may raise. What it has done by then stays done, and what comes after is not
looked at.

* `loop`, `final`: the loop, and what it leaves.
* `upTo`: the items that it comes to, if what raises can be told from the item.
* `inv_loop`: what every turn keeps holds in the end, of the items that the loop has come to. -/

namespace Smara.Lib.Loop

variable {α σ : Type*}

/-- What is left, whether or not it has raised. -/
def final : Except σ σ → σ
  | .ok s => s
  | .error s => s

def Raised : Except σ σ → Prop
  | .ok _ => False
  | .error _ => True

def loop (turn : α → σ → Except σ σ) : List α → σ → Except σ σ
  | [], s => .ok s
  | a :: as, s =>
    match turn a s with
    | .ok s => loop turn as s
    | .error s => .error s

/-- The items up to the first that stops, with it. -/
def upTo (stops : α → Prop) [DecidablePred stops] : List α → List α
  | [] => []
  | a :: as => if stops a then [a] else a :: upTo stops as

variable {turn : α → σ → Except σ σ} {stops : α → Prop} [DecidablePred stops] {I : List α → σ → Prop}

theorem inv_loop {all : List α}
    (hstep : ∀ done a rest s, all = done ++ a :: rest → I done s → I (done ++ [a]) (final (turn a s)))
    (hstops : ∀ done a rest s, all = done ++ a :: rest → I done s → (Raised (turn a s) ↔ stops a))
    {done as : List α} {s : σ} (hall : all = done ++ as) (h : I done s) :
    I (done ++ upTo stops as) (final (loop turn as s)) := by
  induction as generalizing done s with
  | nil => simpa [upTo, loop, final] using h
  | cons a as ih =>
    have hnext := hstep done a as s hall h
    have hraised := hstops done a as s hall h
    unfold upTo loop
    cases hturn : turn a s with
    | ok s' =>
      rw [hturn] at hnext hraised
      rw [if_neg (by simpa [Raised] using hraised)]
      have hnext : I (done ++ [a]) s' := hnext
      have hrest := ih (by simpa using hall) hnext
      rwa [List.append_assoc] at hrest
    | error s' =>
      rw [hturn] at hnext hraised
      rw [if_pos (by simpa [Raised] using hraised)]
      exact hnext

end Smara.Lib.Loop
