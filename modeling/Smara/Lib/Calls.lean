import Smara.Lib.Scripts

/-! # Calls: scripts that are run to their end

A script may be run in one go over a store that nobody else changes: `exec` runs it to its end, and the
question that is asked as the `n`th is answered by `answers n`. `Meets` says that every answer is admitted
where it comes, and that no statement raises where the store is one of the `sure` ones. `Ends` is what the
script must fulfil for its end to satisfy `Q`.

* `ends_exec`: then it does satisfy it.
* `ends_bind`, `ends_get`, `ends_attempt`, `ends_request`: the rules of the statements.
* `Keeping`: a script that keeps an invariant, with the rules of the statements.
* `exec_bind`: a call in two parts. -/

namespace Smara.Lib.Calls

open Lib.Scripts

variable {σ ε ι α β : Type} {ο : ι → Type}

abbrev Answers (ο : ι → Type) : Type := ℕ → (i : ι) → ο i

/-- The end of the script, the store then, and how many questions have been asked. -/
def exec (answers : Answers ο) : ℕ → Script σ ε ο α → σ → Except ε α × σ × ℕ
  | n, .done r, s => (r, s, n)
  | n, .read k, s => exec answers n (k s) s
  | n, .write f k, s =>
    match f s with
    | .ok s' => exec answers n k s'
    | .error e => (.error e, s, n)
  | n, .ask i k, s => exec answers (n + 1) (k (answers n i)) s

/-- The answers are admitted, and no statement raises in a sure state. -/
def Meets (admits : σ → (i : ι) → ο i → Prop) (sure : σ → Prop) (answers : Answers ο) :
    ℕ → Script σ ε ο α → σ → Prop
  | _, .done _, _ => True
  | n, .read k, s => Meets admits sure answers n (k s) s
  | n, .write f k, s =>
    match f s with
    | .ok s' => Meets admits sure answers n k s'
    | .error _ => ¬ sure s
  | n, .ask i k, s => admits s i (answers n i) ∧ Meets admits sure answers (n + 1) (k (answers n i)) s

instance decidableMeets (admits : σ → (i : ι) → ο i → Prop) (sure : σ → Prop) (answers : Answers ο)
    [∀ s i a, Decidable (admits s i a)] [∀ s, Decidable (sure s)] : ∀ (n : ℕ) (p : Script σ ε ο α) (s : σ),
    Decidable (Meets admits sure answers n p s)
  | _, .done _, _ => .isTrue trivial
  | n, .read k, s => decidableMeets admits sure answers n (k s) s
  | n, .write f k, s =>
    match hf : f s with
    | .ok s' =>
      have := decidableMeets admits sure answers n k s'
      decidable_of_iff (Meets admits sure answers n k s') (by rw [Meets, hf])
    | .error _ => decidable_of_iff (¬ sure s) (by rw [Meets, hf])
  | n, .ask i k, s =>
    have := decidableMeets admits sure answers (n + 1) (k (answers n i)) s
    inferInstanceAs (Decidable (_ ∧ _))

/-- **The end of the script** satisfies `Q`, whatever the answers. -/
def Ends (admits : σ → (i : ι) → ο i → Prop) (sure : σ → Prop) (Q : Except ε α → σ → Prop) :
    Script σ ε ο α → σ → Prop
  | .done r, s => Q r s
  | .read k, s => Ends admits sure Q (k s) s
  | .write f k, s =>
    (∀ s', f s = .ok s' → Ends admits sure Q k s') ∧ ∀ e, f s = .error e → ¬ sure s → Q (.error e) s
  | .ask i k, s => ∀ a, admits s i a → Ends admits sure Q (k a) s

section Rules
variable {admits : σ → (i : ι) → ο i → Prop} {sure : σ → Prop} {answers : Answers ο}
  {Q Q' : Except ε α → σ → Prop} {R : Except ε β → σ → Prop} {next : α → Script σ ε ο β} {s : σ}

theorem ends_exec {p : Script σ ε ο α} {n : ℕ} (h : Ends admits sure Q p s)
    (hmeets : Meets admits sure answers n p s) :
    Q (exec answers n p s).1 (exec answers n p s).2.1 := by
  induction p generalizing s n with
  | done r => exact h
  | read k ih => exact ih s h hmeets
  | write f k ih =>
    rw [Meets] at hmeets
    rw [exec]
    cases hf : f s with
    | ok s' =>
      rw [hf] at hmeets
      exact ih (h.1 s' hf) hmeets
    | error e =>
      rw [hf] at hmeets
      exact h.2 e hf hmeets
  | ask i k ih => exact ih (answers n i) (h (answers n i) hmeets.1) hmeets.2

theorem ends_mono {p : Script σ ε ο α} (h : Ends admits sure Q p s) (hQ : ∀ r s, Q r s → Q' r s) :
    Ends admits sure Q' p s := by
  induction p generalizing s with
  | done r => exact hQ r s h
  | read k ih => exact ih s h
  | write f k ih => exact ⟨fun s' hf => ih (h.1 s' hf), fun e hf hs => hQ _ s (h.2 e hf hs)⟩
  | ask i k ih => exact fun a ha => ih a (h a ha)

theorem ends_pure {a : α} (h : Q (.ok a) s) : Ends admits sure Q (pure a : Script σ ε ο α) s := h

theorem ends_raise {e : ε} (h : Q (.error e) s) : Ends admits sure Q (raise e : Script σ ε ο α) s := h

theorem ends_last {f : σ → σ} {Q : Except ε Unit → σ → Prop} (h : Q (.ok ()) (f s)) :
    Ends admits sure Q (put f : Script σ ε ο Unit) s :=
  ⟨fun _ hf => Except.ok.inj hf ▸ h, fun _ hf => nomatch hf⟩

theorem ends_bind {p : Script σ ε ο α} (hp : Ends admits sure Q p s)
    (hnext : ∀ a s, Q (.ok a) s → Ends admits sure R (next a) s)
    (hraise : ∀ e s, Q (.error e) s → R (.error e) s) : Ends admits sure R (p >>= next) s := by
  change Ends admits sure R (p.bind next) s
  induction p generalizing s with
  | done r =>
    cases r with
    | ok a => exact hnext a s hp
    | error e => exact hraise e s hp
  | read k ih => exact ih s hp
  | write f k ih =>
    exact ⟨fun s' hf => ih (hp.1 s' hf), fun e hf hs => hraise e s (hp.2 e hf hs)⟩
  | ask i k ih => exact fun a ha => ih a (hp a ha)

theorem ends_get {f : σ → α} (h : Ends admits sure R (next (f s)) s) :
    Ends admits sure R (get f >>= next) s := h

theorem ends_attempt {f : σ → Except ε σ} {rest : Unit → Script σ ε ο β}
    (h : ∀ s', f s = .ok s' → Ends admits sure R (rest ()) s')
    (he : ∀ e, f s = .error e → ¬ sure s → R (.error e) s) :
    Ends admits sure R (attempt f >>= rest) s := ⟨h, he⟩

theorem ends_put {f : σ → σ} {rest : Unit → Script σ ε ο β}
    (h : Ends admits sure R (rest ()) (f s)) : Ends admits sure R (put f >>= rest) s :=
  ⟨fun _ hf => Except.ok.inj hf ▸ h, fun _ hf => nomatch hf⟩

theorem ends_request {i : ι} {rest : ο i → Script σ ε ο β}
    (h : ∀ a, admits s i a → Ends admits sure R (rest a) s) :
    Ends admits sure R (request i >>= rest) s := h

end Rules

/-! ### Invariants -/

/-- **The script keeps the invariant**, however it ends. -/
def Keeping (admits : σ → (i : ι) → ο i → Prop) (sure : σ → Prop) (I : σ → Prop) (p : Script σ ε ο α) :
    Prop := ∀ s, I s → Ends admits sure (fun _ => I) p s

section Keeping
variable {admits : σ → (i : ι) → ο i → Prop} {sure : σ → Prop} {I : σ → Prop}

theorem keeping_bind {p : Script σ ε ο α} {next : α → Script σ ε ο β} (hp : Keeping admits sure I p)
    (hnext : ∀ a, Keeping admits sure I (next a)) : Keeping admits sure I (p >>= next) :=
  fun s hs => ends_bind (hp s hs) (fun a s' hs' => hnext a s' hs') fun _ _ hs' => hs'

theorem keeping_pure (a : α) : Keeping admits sure I (pure a : Script σ ε ο α) := fun _ hs => hs

theorem keeping_raise (e : ε) : Keeping admits sure I (raise e : Script σ ε ο α) := fun _ hs => hs

theorem keeping_get (f : σ → α) : Keeping admits sure I (get f : Script σ ε ο α) := fun _ hs => hs

theorem keeping_read {f : σ → α} {next : α → Script σ ε ο β}
    (h : ∀ s, I s → Keeping admits sure I (next (f s))) : Keeping admits sure I (get f >>= next) :=
  fun s hs => h s hs s hs

theorem keeping_attempt {f : σ → Except ε σ} (h : ∀ s s', I s → f s = .ok s' → I s') :
    Keeping admits sure I (attempt f : Script σ ε ο Unit) :=
  fun s hs => ⟨fun s' hf => h s s' hs hf, fun _ _ _ => hs⟩

theorem keeping_put {f : σ → σ} (h : ∀ s, I s → I (f s)) :
    Keeping admits sure I (put f : Script σ ε ο Unit) :=
  keeping_attempt fun s _ hs hf => Except.ok.inj hf ▸ h s hs

theorem keeping_request (i : ι) : Keeping admits sure I (request i : Script σ ε ο (ο i)) :=
  fun _ hs _ _ => hs

theorem keeping_require {p : Prop} [Decidable p] {e : ε} :
    Keeping admits sure I (require p e : Script σ ε ο Unit) := by
  unfold require
  split_ifs
  · exact keeping_pure ()
  · exact keeping_raise e

theorem keeping_ite {c : Prop} [Decidable c] {p q : Script σ ε ο α} (hp : c → Keeping admits sure I p)
    (hq : ¬ c → Keeping admits sure I q) : Keeping admits sure I (if c then p else q) := by
  split_ifs with hc
  · exact hp hc
  · exact hq hc

theorem keeping_exec {p : Script σ ε ο α} (hp : Keeping admits sure I p) {answers : Answers ο} {n : ℕ}
    {s : σ} (hs : I s) (hmeets : Meets admits sure answers n p s) : I (exec answers n p s).2.1 :=
  ends_exec (hp s hs) hmeets

end Keeping

-- from here on only the rules say what `Ends` is, so that a goal about a long script stays as it is
attribute [irreducible] Ends

/-! ### Answers -/

theorem meets_any {answers : Answers ο} {n : ℕ} {p : Script σ ε ο α} {s : σ} :
    Meets (fun _ _ _ => True) (fun _ => False) answers n p s := by
  induction p generalizing s n with
  | done r => exact trivial
  | read k ih => exact ih s
  | write f k ih =>
    rw [Meets]
    cases f s with
    | ok s' => exact ih
    | error e => exact not_false
  | ask i k ih => exact ⟨trivial, ih (answers n i)⟩

theorem meets_and {admits admits' : σ → (i : ι) → ο i → Prop} {sure sure' : σ → Prop} {answers : Answers ο}
    {n : ℕ} {p : Script σ ε ο α} {s : σ} (h : Meets admits sure answers n p s)
    (h' : Meets admits' sure' answers n p s) :
    Meets (fun s i a => admits s i a ∧ admits' s i a) sure' answers n p s := by
  induction p generalizing s n with
  | done r => exact trivial
  | read k ih => exact ih s h h'
  | write f k ih =>
    rw [Meets] at h h' ⊢
    cases hf : f s with
    | ok s' =>
      rw [hf] at h h'
      exact ih h h'
    | error e =>
      rw [hf] at h'
      exact h'
  | ask i k ih => exact ⟨⟨h.1, h'.1⟩, ih (answers n i) h.2 h'.2⟩

theorem meets_of_bind {admits : σ → (i : ι) → ο i → Prop} {sure : σ → Prop} {answers : Answers ο}
    {n : ℕ} {p : Script σ ε ο α} {next : α → Script σ ε ο β} {s : σ}
    (h : Meets admits sure answers n (p >>= next) s) : Meets admits sure answers n p s := by
  change Meets admits sure answers n (p.bind next) s at h
  induction p generalizing s n with
  | done r => exact trivial
  | read k ih => exact ih s h
  | write f k ih =>
    rw [Script.bind, Meets] at h
    rw [Meets]
    cases hf : f s with
    | ok s' =>
      rw [hf] at h
      exact ih h
    | error e =>
      rw [hf] at h
      exact h
  | ask i k ih => exact ⟨h.1, ih (answers n i) h.2⟩

theorem exec_bind {answers : Answers ο} {n : ℕ} {p : Script σ ε ο α} {next : α → Script σ ε ο β} {s : σ} :
    exec answers n (p >>= next) s = match exec answers n p s with
      | (.ok a, s', m) => exec answers m (next a) s'
      | (.error e, s', m) => (.error e, s', m) := by
  change exec answers n (p.bind next) s = _
  induction p generalizing s n with
  | done r => cases r <;> rfl
  | read k ih => exact ih s
  | write f k ih =>
    rw [Script.bind, exec, exec]
    cases f s with
    | ok s' => exact ih
    | error e => rfl
  | ask i k ih => exact ih (answers n i)

end Smara.Lib.Calls
