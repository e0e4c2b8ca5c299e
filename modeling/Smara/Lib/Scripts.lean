import Mathlib.Data.List.Basic

/-! # Scripts: programs over a durable store

A script reads and writes a store one statement at a time, and asks its environment in between. It may
be left after any statement, and others may change the store between two of them. A `Contract` says
what the others may do, which answers are admitted, and what holds at every border of two statements;
`Holds C Q p s tr` says that `p`, started in `s` after the exchanges `tr`, keeps to the contract and
ends with `Q`.

* `holds_bind`, `holds_get`, `holds_put`, `holds_request`: the rules of the statements.
* `holds_of_quiet`: a script whose writes leave something alone.
* `guarded_next`: a machine that runs one script at a time, with crashes, keeps what the scripts keep. -/

namespace Smara.Lib.Scripts

variable {σ ε ι α β τ χ : Type} {ο : ι → Type}

/-- A script over the store `σ`, with the answers `ο i` to the questions `i`. -/
inductive Script (σ ε : Type) {ι : Type} (ο : ι → Type) (α : Type)
  | done (r : Except ε α)
  | read (k : σ → Script σ ε ο α)
  | write (f : σ → Except ε σ) (k : Script σ ε ο α)
  | ask (i : ι) (k : ο i → Script σ ε ο α)

namespace Script

def bind (p : Script σ ε ο α) (next : α → Script σ ε ο β) : Script σ ε ο β :=
  match p with
  | .done (.ok a) => next a
  | .done (.error e) => .done (.error e)
  | .read k => .read fun s => (k s).bind next
  | .write f k => .write f (k.bind next)
  | .ask i k => .ask i fun a => (k a).bind next

instance : Monad (Script σ ε ο) where
  pure a := .done (.ok a)
  bind := bind

end Script

def raise (e : ε) : Script σ ε ο α := .done (.error e)

def require (p : Prop) [Decidable p] (e : ε) : Script σ ε ο Unit :=
  if p then .done (.ok ()) else raise e

def get (f : σ → α) : Script σ ε ο α := .read fun s => .done (.ok (f s))

def attempt (f : σ → Except ε σ) : Script σ ε ο Unit := .write f (.done (.ok ()))

def put (f : σ → σ) : Script σ ε ο Unit := attempt fun s => .ok (f s)

def request (i : ι) : Script σ ε ο (ο i) := .ask i fun a => .done (.ok a)

/-- A question with its answer, unless the script was left before the answer came. -/
structure Exchange (ο : ι → Type) where
  asked : ι
  answer : Option (ο asked)

/-- What a script relies on, and what it keeps. -/
structure Contract (σ : Type) {ι : Type} (ο : ι → Type) where
  /-- what others may do to the store between two statements -/
  rely : σ → σ → Prop
  /-- the answers that are considered -/
  admits : σ → (i : ι) → ο i → Prop
  /-- what holds between two statements -/
  inv : σ → List (Exchange ο) → Prop
  refl : ∀ s, rely s s
  trans : ∀ {s s' s''}, rely s s' → rely s' s'' → rely s s''
  stable : ∀ {s s' tr}, rely s s' → inv s tr → inv s' tr

section Rules
variable {C : Contract σ ο} {Q Q' : Except ε α → σ → List (Exchange ο) → Prop}
  {s s' : σ} {tr : List (Exchange ο)}

/-- **The script keeps to its contract**, and its end satisfies `Q`. -/
def Holds (C : Contract σ ο) (Q : Except ε α → σ → List (Exchange ο) → Prop) :
    Script σ ε ο α → σ → List (Exchange ο) → Prop
  | .done r, s, tr => C.inv s tr ∧ ∀ s', C.rely s s' → Q r s' tr
  | .read k, s, tr => C.inv s tr ∧ ∀ s', C.rely s s' → Holds C Q (k s') s' tr
  | .write f k, s, tr => C.inv s tr ∧ ∀ s', C.rely s s' →
    (∀ s'', f s' = .ok s'' → Holds C Q k s'' tr) ∧
      ∀ e, f s' = .error e → ∀ s'', C.rely s' s'' → Q (.error e) s'' tr
  | .ask i k, s, tr => C.inv s tr ∧ ∀ s', C.rely s s' → C.inv s' (tr ++ [⟨i, none⟩]) ∧
    ∀ a, C.admits s' i a → Holds C Q (k a) s' (tr ++ [⟨i, some a⟩])

theorem inv_of_holds {p : Script σ ε ο α} (h : Holds C Q p s tr) : C.inv s tr := by
  cases p with
  | done r => exact h.1
  | read k => exact h.1
  | write f k => exact h.1
  | ask i k => exact h.1

theorem holds_rely {p : Script σ ε ο α} (h : Holds C Q p s tr) (hr : C.rely s s') :
    Holds C Q p s' tr := by
  have hinv := C.stable hr (inv_of_holds h)
  cases p with
  | done r => exact ⟨hinv, fun _ h' => h.2 _ (C.trans hr h')⟩
  | read k => exact ⟨hinv, fun _ h' => h.2 _ (C.trans hr h')⟩
  | write f k => exact ⟨hinv, fun _ h' => h.2 _ (C.trans hr h')⟩
  | ask i k => exact ⟨hinv, fun _ h' => h.2 _ (C.trans hr h')⟩

theorem holds_mono {p : Script σ ε ο α} (h : Holds C Q p s tr)
    (hQ : ∀ r s tr, Q r s tr → Q' r s tr) : Holds C Q' p s tr := by
  induction p generalizing s tr with
  | done r => exact ⟨h.1, fun s' hr => hQ r s' tr (h.2 s' hr)⟩
  | read k ih => exact ⟨h.1, fun s' hr => ih s' (h.2 s' hr)⟩
  | write f k ih =>
    refine ⟨h.1, fun s' hr => ⟨fun s'' hf => ih ((h.2 s' hr).1 s'' hf), fun e hf s'' hr' => ?_⟩⟩
    exact hQ _ s'' tr ((h.2 s' hr).2 e hf s'' hr')
  | ask i k ih =>
    exact ⟨h.1, fun s' hr => ⟨(h.2 s' hr).1, fun a ha => ih a ((h.2 s' hr).2 a ha)⟩⟩

theorem holds_bind {p : Script σ ε ο α} {next : α → Script σ ε ο β}
    {Q : Except ε β → σ → List (Exchange ο) → Prop}
    (h : Holds C (fun r s tr => match r with
      | .ok a => Holds C Q (next a) s tr
      | .error e => Q (.error e) s tr) p s tr) : Holds C Q (p >>= next) s tr := by
  change Holds C Q (p.bind next) s tr
  induction p generalizing s tr with
  | done r =>
    cases r with
    | ok a => exact h.2 s (C.refl s)
    | error e => exact h
  | read k ih => exact ⟨h.1, fun s' hr => ih s' (h.2 s' hr)⟩
  | write f k ih =>
    exact ⟨h.1, fun s' hr => ⟨fun s'' hf => ih ((h.2 s' hr).1 s'' hf), (h.2 s' hr).2⟩⟩
  | ask i k ih =>
    exact ⟨h.1, fun s' hr => ⟨(h.2 s' hr).1, fun a ha => ih a ((h.2 s' hr).2 a ha)⟩⟩

theorem holds_seq {p : Script σ ε ο α} {next : α → Script σ ε ο β}
    {R : Except ε β → σ → List (Exchange ο) → Prop} (hp : Holds C Q p s tr)
    (hnext : ∀ a s tr, Q (.ok a) s tr → Holds C R (next a) s tr)
    (hraise : ∀ e s tr, Q (.error e) s tr → R (.error e) s tr) : Holds C R (p >>= next) s tr := by
  refine holds_bind (holds_mono hp fun r s tr hr => ?_)
  cases r with
  | ok a => exact hnext a s tr hr
  | error e => exact hraise e s tr hr

theorem holds_pure {a : α} (hinv : C.inv s tr) (h : ∀ s', C.rely s s' → Q (.ok a) s' tr) :
    Holds C Q (pure a) s tr := ⟨hinv, h⟩

theorem holds_raise {e : ε} (hinv : C.inv s tr) (h : ∀ s', C.rely s s' → Q (.error e) s' tr) :
    Holds C Q (raise e) s tr := ⟨hinv, h⟩

variable {next : α → Script σ ε ο β} {R : Except ε β → σ → List (Exchange ο) → Prop}

theorem holds_get {f : σ → α} (hinv : C.inv s tr)
    (h : ∀ s', C.rely s s' → Holds C R (next (f s')) s' tr) : Holds C R (get f >>= next) s tr :=
  ⟨hinv, h⟩

theorem holds_attempt {f : σ → Except ε σ} {rest : Unit → Script σ ε ο β} (hinv : C.inv s tr)
    (h : ∀ s', C.rely s s' → ∀ s'', f s' = .ok s'' → Holds C R (rest ()) s'' tr)
    (he : ∀ s', C.rely s s' → ∀ e, R (.error e) s' tr) : Holds C R (attempt f >>= rest) s tr :=
  ⟨hinv, fun s' hr => ⟨h s' hr, fun e _ s'' hr' => he s'' (C.trans hr hr') e⟩⟩

theorem holds_put {f : σ → σ} {rest : Unit → Script σ ε ο β} (hinv : C.inv s tr)
    (h : ∀ s', C.rely s s' → Holds C R (rest ()) (f s') tr) : Holds C R (put f >>= rest) s tr :=
  ⟨hinv, fun s' hr => ⟨fun _ hf => Except.ok.inj hf ▸ h s' hr, fun _ hf => nomatch hf⟩⟩

theorem holds_request {i : ι} {rest : ο i → Script σ ε ο β} (hinv : C.inv s tr)
    (hasked : ∀ s', C.rely s s' → C.inv s' (tr ++ [⟨i, none⟩]))
    (h : ∀ s', C.rely s s' → ∀ a, C.admits s' i a → Holds C R (rest a) s' (tr ++ [⟨i, some a⟩])) :
    Holds C R (request i >>= rest) s tr := ⟨hinv, fun s' hr => ⟨hasked s' hr, h s' hr⟩⟩

theorem holds_require {p : Prop} [Decidable p] {e : ε} {rest : Unit → Script σ ε ο β}
    (hinv : C.inv s tr) (h : p → Holds C R (rest ()) s tr)
    (he : ¬ p → ∀ s', C.rely s s' → R (.error e) s' tr) :
    Holds C R (require p e >>= rest) s tr := by
  unfold require
  split_ifs with hp
  · exact h hp
  · exact ⟨hinv, he hp⟩

end Rules

/-! ### Quiet scripts -/

/-- The writes of the script are of a kind, and so are its questions. -/
def Quiet (keeps : σ → σ → Prop) (mild : ι → Prop) : Script σ ε ο α → Prop
  | .done _ => True
  | .read k => ∀ s, Quiet keeps mild (k s)
  | .write f k => (∀ s s', f s = .ok s' → keeps s s') ∧ Quiet keeps mild k
  | .ask i k => mild i ∧ ∀ a, Quiet keeps mild (k a)

section Quiet
variable {keeps : σ → σ → Prop} {mild : ι → Prop}

theorem quiet_bind {p : Script σ ε ο α} {next : α → Script σ ε ο β} (hp : Quiet keeps mild p)
    (hnext : ∀ a, Quiet keeps mild (next a)) : Quiet keeps mild (p >>= next) := by
  change Quiet keeps mild (p.bind next)
  induction p with
  | done r =>
    cases r with
    | ok a => exact hnext a
    | error e => exact trivial
  | read k ih => exact fun s => ih s (hp s)
  | write f k ih => exact ⟨hp.1, ih hp.2⟩
  | ask i k ih => exact ⟨hp.1, fun a => ih a (hp.2 a)⟩

theorem quiet_mono {keeps' : σ → σ → Prop} {p : Script σ ε ο α} (hp : Quiet keeps mild p)
    (h : ∀ s s', keeps s s' → keeps' s s') : Quiet keeps' mild p := by
  induction p with
  | done r => exact trivial
  | read k ih => exact fun s => ih s (hp s)
  | write f k ih => exact ⟨fun s s' hf => h s s' (hp.1 s s' hf), ih hp.2⟩
  | ask i k ih => exact ⟨hp.1, fun a => ih a (hp.2 a)⟩

theorem quiet_pure (a : α) : Quiet keeps mild (pure a : Script σ ε ο α) := trivial

theorem quiet_raise (e : ε) : Quiet keeps mild (raise e : Script σ ε ο α) := trivial

theorem quiet_get (f : σ → α) : Quiet keeps mild (get f : Script σ ε ο α) := fun _ => trivial

theorem quiet_put {f : σ → σ} (h : ∀ s, keeps s (f s)) :
    Quiet keeps mild (put f : Script σ ε ο Unit) :=
  ⟨fun s _ hf => Except.ok.inj hf ▸ h s, trivial⟩

theorem quiet_request {i : ι} (h : mild i) : Quiet keeps mild (request i : Script σ ε ο (ο i)) :=
  ⟨h, fun _ => trivial⟩

theorem quiet_require {p : Prop} [Decidable p] {e : ε} :
    Quiet keeps mild (require p e : Script σ ε ο Unit) := by
  unfold require
  split_ifs <;> trivial

theorem quiet_ite {p : Prop} [Decidable p] {x y : Script σ ε ο α} (hx : Quiet keeps mild x)
    (hy : Quiet keeps mild y) : Quiet keeps mild (if p then x else y) := by
  split_ifs
  · exact hx
  · exact hy

def Extends (mild : ι → Prop) (tr tr' : List (Exchange ο)) : Prop :=
  ∃ es, tr' = tr ++ es ∧ ∀ e ∈ es, mild e.asked

theorem extends_refl (tr : List (Exchange ο)) : Extends mild tr tr :=
  ⟨[], (List.append_nil tr).symm, fun _ h => absurd h List.not_mem_nil⟩

theorem extends_append {tr tr' : List (Exchange ο)} (h : Extends mild tr tr') {e : Exchange ο}
    (he : mild e.asked) : Extends mild tr (tr' ++ [e]) := by
  obtain ⟨es, rfl, hes⟩ := h
  refine ⟨es ++ [e], List.append_assoc tr es [e], fun e' he' => ?_⟩
  rcases List.mem_append.mp he' with h' | h'
  · exact hes e' h'
  · rw [List.mem_singleton.mp h']
    exact he

/-- **A quiet script** keeps what its writes keep, whatever the others do. -/
theorem holds_of_quiet {C : Contract σ ο} {p : Script σ ε ο α} (hp : Quiet keeps mild p)
    (hrefl : ∀ s, keeps s s) (htrans : ∀ {s s' s''}, keeps s s' → keeps s' s'' → keeps s s'')
    (hrely : ∀ {s s'}, C.rely s s' → keeps s s') {s : σ} {tr : List (Exchange ο)}
    (hinv : ∀ {s' tr'}, keeps s s' → Extends mild tr tr' → C.inv s' tr') :
    Holds C (fun _ s' tr' => keeps s s' ∧ Extends mild tr tr') p s tr := by
  suffices h : ∀ s' tr', keeps s s' → Extends mild tr tr' →
      Holds C (fun _ s' tr' => keeps s s' ∧ Extends mild tr tr') p s' tr' from
    h s tr (hrefl s) (extends_refl tr)
  induction p with
  | done r =>
    exact fun s' tr' hk ht => ⟨hinv hk ht, fun s'' hr => ⟨htrans hk (hrely hr), ht⟩⟩
  | read k ih =>
    exact fun s' tr' hk ht => ⟨hinv hk ht, fun s'' hr => ih s'' (hp s'') _ _ (htrans hk (hrely hr)) ht⟩
  | write f k ih =>
    intro s' tr' hk ht
    refine ⟨hinv hk ht, fun s'' hr => ⟨fun s₃ hf => ?_, fun e _ s₃ hr' => ?_⟩⟩
    · exact ih hp.2 _ _ (htrans (htrans hk (hrely hr)) (hp.1 s'' s₃ hf)) ht
    · exact ⟨htrans (htrans hk (hrely hr)) (hrely hr'), ht⟩
  | ask i k ih =>
    intro s' tr' hk ht
    refine ⟨hinv hk ht, fun s'' hr => ⟨?_, fun a _ => ?_⟩⟩
    · exact hinv (htrans hk (hrely hr)) (extends_append ht hp.1)
    · exact ih a (hp.2 a) _ _ (htrans hk (hrely hr)) (extends_append ht hp.1)

end Quiet

/-! ### Results -/

/-- Every end of the script is of a kind. -/
def Yields (P : Except ε α → Prop) : Script σ ε ο α → Prop
  | .done r => P r
  | .read k => ∀ s, Yields P (k s)
  | .write f k => (∀ s e, f s = .error e → P (.error e)) ∧ Yields P k
  | .ask _ k => ∀ a, Yields P (k a)

section Yields
variable {P : Except ε α → Prop} {P' : Except ε β → Prop}

theorem yields_bind {p : Script σ ε ο α} {next : α → Script σ ε ο β} (hp : Yields P p)
    (hnext : ∀ a, P (.ok a) → Yields P' (next a)) (hraise : ∀ e, P (.error e) → P' (.error e)) :
    Yields P' (p >>= next) := by
  change Yields P' (p.bind next)
  induction p with
  | done r =>
    cases r with
    | ok a => exact hnext a hp
    | error e => exact hraise e hp
  | read k ih => exact fun s => ih s (hp s)
  | write f k ih => exact ⟨fun s e hf => hraise e (hp.1 s e hf), ih hp.2⟩
  | ask i k ih => exact fun a => ih a (hp a)

theorem yields_mono {P' : Except ε α → Prop} {p : Script σ ε ο α} (hp : Yields P p)
    (h : ∀ r, P r → P' r) : Yields P' p := by
  induction p with
  | done r => exact h r hp
  | read k ih => exact fun s => ih s (hp s)
  | write f k ih => exact ⟨fun s e hf => h _ (hp.1 s e hf), ih hp.2⟩
  | ask i k ih => exact fun a => ih a (hp a)

theorem yields_any {p : Script σ ε ο α} (h : ∀ r, P r) : Yields P p := by
  induction p with
  | done r => exact h r
  | read k ih => exact ih
  | write f k ih => exact ⟨fun _ e _ => h (.error e), ih⟩
  | ask i k ih => exact ih

theorem yields_get {f : σ → α} {next : α → Script σ ε ο β} (h : ∀ a, Yields P' (next a)) :
    Yields P' (get f >>= next) := fun s => h (f s)

theorem yields_put {f : σ → σ} {next : Unit → Script σ ε ο β} (h : Yields P' (next ())) :
    Yields P' (put f >>= next) := ⟨fun _ _ => nofun, h⟩

theorem yields_request {i : ι} {next : ο i → Script σ ε ο β} (h : ∀ a, Yields P' (next a)) :
    Yields P' (request i >>= next) := h

theorem yields_require {p : Prop} [Decidable p] {e : ε} {next : Unit → Script σ ε ο β}
    (h : p → Yields P' (next ())) (he : ¬ p → P' (.error e)) :
    Yields P' (require p e >>= next) := by
  unfold require
  split_ifs with hp
  · exact h hp
  · exact he hp

theorem yields_ite {c : Prop} [Decidable c] {x y : Script σ ε ο α} (hx : c → Yields P x)
    (hy : ¬ c → Yields P y) : Yields P (if c then x else y) := by
  split_ifs with hc
  · exact hx hc
  · exact hy hc

theorem holds_yields {C : Contract σ ο} {Q : Except ε α → σ → List (Exchange ο) → Prop}
    {p : Script σ ε ο α} (hp : Yields P p) {s : σ} {tr : List (Exchange ο)} (h : Holds C Q p s tr) :
    Holds C (fun r s tr => Q r s tr ∧ P r) p s tr := by
  induction p generalizing s tr with
  | done r => exact ⟨h.1, fun s' hr => ⟨h.2 s' hr, hp⟩⟩
  | read k ih => exact ⟨h.1, fun s' hr => ih s' (hp s') (h.2 s' hr)⟩
  | write f k ih =>
    refine ⟨h.1, fun s' hr => ⟨fun s'' hf => ih hp.2 ((h.2 s' hr).1 s'' hf), fun e hf s'' hr' => ?_⟩⟩
    exact ⟨(h.2 s' hr).2 e hf s'' hr', hp.1 s' e hf⟩
  | ask i k ih =>
    exact ⟨h.1, fun s' hr => ⟨(h.2 s' hr).1, fun a ha => ih a (hp a) ((h.2 s' hr).2 a ha)⟩⟩

theorem holds_of_yields {C : Contract σ ο} (hinv : ∀ s tr, C.inv s tr) {p : Script σ ε ο α}
    (hp : Yields P p) (s : σ) (tr : List (Exchange ο)) : Holds C (fun r _ _ => P r) p s tr := by
  induction p generalizing s tr with
  | done r => exact ⟨hinv s tr, fun _ _ => hp⟩
  | read k ih => exact ⟨hinv s tr, fun s' _ => ih s' (hp s') s' tr⟩
  | write f k ih =>
    exact ⟨hinv s tr, fun s' _ => ⟨fun s'' _ => ih hp.2 s'' tr, fun e hf _ _ => hp.1 s' e hf⟩⟩
  | ask i k ih => exact ⟨hinv s tr, fun s' _ => ⟨hinv s' _, fun a _ => ih a (hp a) s' _⟩⟩

end Yields

/-! ### A machine of scripts -/

/-- A machine that runs one script at a time, for a call of `τ`. -/
structure Machine (σ ε : Type) {ι : Type} (ο : ι → Type) (τ α : Type) where
  store : σ
  running : Option (τ × Script σ ε ο α) := none
  trace : List (Exchange ο) := []

/-- What may happen to the machine: a call, a statement of the script that runs, a crash, and what
others do. -/
inductive Event {ι : Type} (ο : ι → Type) (τ χ : Type)
  | start (call : τ)
  | step (answer : (i : ι) → ο i)
  /-- `asking` if the question has been asked already -/
  | crash (asking : Bool)
  | disturb (x : χ)

section Machine
variable (program : τ → Script σ ε ο α) (disturb : χ → σ → σ)

def next (m : Machine σ ε ο τ α) : Event ο τ χ → Machine σ ε ο τ α
  | .start call =>
    match m.running with
    | none => { m with running := some (call, program call) }
    | some _ => m
  | .step answer =>
    match m.running with
    | none => m
    | some (_, .done _) => { m with running := none }
    | some (call, .read k) => { m with running := some (call, k m.store) }
    | some (call, .write f k) =>
      match f m.store with
      | .ok s => { m with store := s, running := some (call, k) }
      | .error _ => { m with running := none }
    | some (call, .ask i k) =>
      { m with running := some (call, k (answer i)), trace := m.trace ++ [⟨i, some (answer i)⟩] }
  | .crash asking =>
    match m.running with
    | some (_, .ask i _) =>
      { m with running := none, trace := if asking then m.trace ++ [⟨i, none⟩] else m.trace }
    | _ => { m with running := none }
  | .disturb x => { m with store := disturb x m.store }

variable {program disturb} {C : τ → Contract σ ο} {I : σ → List (Exchange ο) → Prop}

/-- At rest the invariant holds, and a script that runs keeps to its contract. -/
def Guarded (C : τ → Contract σ ο) (I : σ → List (Exchange ο) → Prop) (m : Machine σ ε ο τ α) : Prop :=
  match m.running with
  | none => I m.store m.trace
  | some (call, p) => Holds (C call) (fun _ => I) p m.store m.trace

theorem guarded_disturb {m : Machine σ ε ο τ α} (h : Guarded C I m) (x : χ)
    (hrely : ∀ call s, (C call).rely s (disturb x s))
    (hrest : ∀ s tr, I s tr → I (disturb x s) tr) :
    Guarded C I (next program disturb m (.disturb x)) := by
  obtain ⟨s, running, tr⟩ := m
  cases running with
  | none => exact hrest s tr h
  | some call => exact holds_rely h (hrely call.1 s)

theorem guarded_step {m : Machine σ ε ο τ α} (h : Guarded C I m) (answer : (i : ι) → ο i)
    (hadmits : ∀ call i k, m.running = some (call, .ask i k) →
      (C call).admits m.store i (answer i)) :
    Guarded C I (next program disturb m (.step answer)) := by
  obtain ⟨s, running, tr⟩ := m
  cases running with
  | none => exact h
  | some c =>
    obtain ⟨call, p⟩ := c
    cases p with
    | done r => exact h.2 s ((C call).refl s)
    | read k => exact h.2 s ((C call).refl s)
    | write f k =>
      have hw := h.2 s ((C call).refl s)
      cases hf : f s with
      | ok s' =>
        simp only [next, hf]
        exact hw.1 s' hf
      | error e =>
        simp only [next, hf]
        exact hw.2 e hf s ((C call).refl s)
    | ask i k => exact (h.2 s ((C call).refl s)).2 (answer i) (hadmits call i k rfl)

theorem guarded_crash {m : Machine σ ε ο τ α} (h : Guarded C I m) (asking : Bool)
    (hcrash : ∀ call s tr, (C call).inv s tr → I s tr) :
    Guarded C I (next program disturb m (.crash asking)) := by
  obtain ⟨s, running, tr⟩ := m
  cases running with
  | none => exact h
  | some c =>
    obtain ⟨call, p⟩ := c
    have hinv : I s tr := hcrash call s tr (inv_of_holds h)
    cases p with
    | done r => exact hinv
    | read k => exact hinv
    | write f k => exact hinv
    | ask i k =>
      cases asking with
      | false => exact hinv
      | true => exact hcrash call s _ (h.2 s ((C call).refl s)).1

/-- **The machine keeps what its scripts keep**: a step of it from one guarded state to the next. -/
theorem guarded_next {m : Machine σ ε ο τ α} (h : Guarded C I m) (e : Event ο τ χ)
    (hstart : ∀ call, e = .start call → m.running = none → I m.store m.trace →
      Holds (C call) (fun _ => I) (program call) m.store m.trace)
    (hadmits : ∀ answer, e = .step answer → ∀ call i k, m.running = some (call, .ask i k) →
      (C call).admits m.store i (answer i))
    (hcrash : ∀ asking, e = .crash asking → ∀ call s tr, (C call).inv s tr → I s tr)
    (hrely : ∀ x call s, (C call).rely s (disturb x s))
    (hrest : ∀ x s tr, I s tr → I (disturb x s) tr) :
    Guarded C I (next program disturb m e) := by
  cases e with
  | start call =>
    obtain ⟨s, running, tr⟩ := m
    cases running with
    | none => exact hstart call rfl rfl h
    | some c => exact h
  | step answer => exact guarded_step h answer (hadmits answer rfl)
  | crash asking => exact guarded_crash h asking (hcrash asking rfl)
  | disturb x => exact guarded_disturb h x (hrely x) (hrest x)

end Machine

end Smara.Lib.Scripts
