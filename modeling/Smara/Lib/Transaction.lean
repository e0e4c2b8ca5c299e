import Mathlib.Order.Defs.Unbundled

/-! # Transactions on a state

A call returns a value or an error, with the state after it. `commit Valid violation body` runs the
body as one transaction: its writes are kept if it does not raise and the state it leaves is valid.
`query` reads without writing, and `andThen` makes a call of several transactions: what one has
committed stays when a later one raises.

`Keeps I o`: the call keeps `I`; `keeps_commit`, `keeps_query` and `keeps_andThen` prove it from the
shape of the call. `Moves R o`: it moves every state along the preorder `R`, with the same rules. -/

namespace Smara.Lib.Transaction

variable {σ ε β γ : Type*}

section Def

/-- **A transaction.** -/
def commit (Valid : σ → Prop) [DecidablePred Valid] (violation : ε)
    (body : σ → Except ε (β × σ)) (s : σ) : Except ε β × σ :=
  match body s with
  | .ok (b, s') => if Valid s' then (.ok b, s') else (.error violation, s)
  | .error e => (.error e, s)

def query (f : σ → Except ε β) (s : σ) : Except ε β × σ := (f s, s)

/-- A call of several transactions. -/
def andThen (o : σ → Except ε β × σ) (k : β → σ → Except ε γ × σ) (s : σ) : Except ε γ × σ :=
  match o s with
  | (.ok b, s') => k b s'
  | (.error e, s') => (.error e, s')

end Def

section Outcome
variable {Valid : σ → Prop} [DecidablePred Valid] {violation : ε}
  {body : σ → Except ε (β × σ)} {s s' : σ} {b : β}

theorem commit_eq (Valid : σ → Prop) [DecidablePred Valid] (violation : ε)
    (body : σ → Except ε (β × σ)) (s : σ) :
    (∃ b s', body s = .ok (b, s') ∧ Valid s' ∧ commit Valid violation body s = (.ok b, s')) ∨
      ∃ e, commit Valid violation body s = (.error e, s) := by
  unfold commit
  cases hb : body s with
  | error e => exact Or.inr ⟨e, rfl⟩
  | ok r =>
    obtain ⟨b, s'⟩ := r
    by_cases hv : Valid s'
    · exact Or.inl ⟨b, s', rfl, hv, by simp [hv]⟩
    · exact Or.inr ⟨violation, by simp [hv]⟩

theorem commit_ok (h : commit Valid violation body s = (.ok b, s')) :
    body s = .ok (b, s') ∧ Valid s' := by
  rcases commit_eq Valid violation body s with ⟨b', s'', hb, hv, he⟩ | ⟨e, he⟩
  · rw [he] at h
    simp only [Prod.mk.injEq, Except.ok.injEq] at h
    obtain ⟨rfl, rfl⟩ := h
    exact ⟨hb, hv⟩
  · simp [he] at h

theorem commit_of_ok (hb : body s = .ok (b, s')) (hv : Valid s') :
    commit Valid violation body s = (.ok b, s') := by
  unfold commit
  rw [hb]
  exact if_pos hv

theorem commit_error {e : ε} (h : (commit Valid violation body s).1 = .error e) :
    body s = .error e ∨ e = violation := by
  unfold commit at h
  split at h
  · next b s' hb =>
    split at h
    · cases h
    · cases h
      exact Or.inr rfl
  · next e' he =>
    cases h
    exact Or.inl he

theorem query_ok {f : σ → Except ε β} (h : query f s = (.ok b, s')) : f s = .ok b ∧ s' = s := by
  simp only [query, Prod.mk.injEq] at h
  exact ⟨h.1, h.2.symm⟩

theorem andThen_ok {o : σ → Except ε β × σ} {k : β → σ → Except ε γ × σ} {x : γ} {s'' : σ}
    (h : andThen o k s = (.ok x, s'')) : ∃ b s', o s = (.ok b, s') ∧ k b s' = (.ok x, s'') := by
  unfold andThen at h
  split at h
  · next b s' he => exact ⟨b, s', he, h⟩
  · simp at h

end Outcome

theorem bind_ok {α β : Type} {x : Except ε α} {f : α → Except ε β} {b : β} (h : x >>= f = .ok b) :
    ∃ a, x = .ok a ∧ f a = .ok b := by
  cases x with
  | error e => cases h
  | ok a => exact ⟨a, rfl, h⟩

/-! ### What calls keep -/

/-- The call keeps `I`. -/
def Keeps (I : σ → Prop) (o : σ → Except ε β × σ) : Prop := ∀ s, I s → I (o s).2

section Keeps
variable {I Valid : σ → Prop} [DecidablePred Valid] {violation : ε}

theorem keeps_commit {body : σ → Except ε (β × σ)}
    (h : ∀ s b s', I s → body s = .ok (b, s') → Valid s' → I s') :
    Keeps I (commit Valid violation body) := by
  intro s hs
  rcases commit_eq Valid violation body s with ⟨b, s', hb, hv, he⟩ | ⟨e, he⟩
  · rw [he]
    exact h s b s' hs hb hv
  · rw [he]
    exact hs

theorem keeps_query (f : σ → Except ε β) : Keeps I (query f) := fun _ h => h

theorem keeps_andThen {o : σ → Except ε β × σ} {k : β → σ → Except ε γ × σ} (ho : Keeps I o)
    (hk : ∀ b, Keeps I (k b)) : Keeps I (andThen o k) := by
  intro s hs
  have h := ho s hs
  unfold andThen
  split
  · next b s' he =>
    rw [he] at h
    exact hk b s' h
  · next e s' he =>
    rw [he] at h
    exact h

end Keeps

/-- The call moves every state along `R`. -/
def Moves (R : σ → σ → Prop) (o : σ → Except ε β × σ) : Prop := ∀ s, R s (o s).2

section Moves
variable {R : σ → σ → Prop} {Valid : σ → Prop} [DecidablePred Valid] {violation : ε}

theorem moves_commit [Std.Refl R] {body : σ → Except ε (β × σ)}
    (h : ∀ s b s', body s = .ok (b, s') → R s s') : Moves R (commit Valid violation body) := by
  intro s
  rcases commit_eq Valid violation body s with ⟨b, s', hb, -, he⟩ | ⟨e, he⟩
  · rw [he]
    exact h s b s' hb
  · rw [he]
    exact refl s

theorem moves_query [Std.Refl R] (f : σ → Except ε β) : Moves R (query f) := fun s => refl s

theorem moves_andThen [IsTrans σ R] {o : σ → Except ε β × σ} {k : β → σ → Except ε γ × σ}
    (ho : Moves R o) (hk : ∀ b, Moves R (k b)) : Moves R (andThen o k) := by
  intro s
  have h := ho s
  unfold andThen
  split
  · next b s' he =>
    rw [he] at h
    exact IsTrans.trans s s' _ h (hk b s')
  · next e s' he =>
    rw [he] at h
    exact h

end Moves

end Smara.Lib.Transaction
