import Mathlib.Data.List.Basic

/-! # Acceptors

An acceptor reads a list from left to right and may refuse an element.

* `scan`: the state after a list.
* `Rests`: an element that is accepted in one state alone, and leaves it as it is.
* `scan_cut`, `scan_filter`, `scan_insert`: between elements that rest, what is accepted can be cut out or put in. -/

namespace Smara.Lib.Acceptor

variable {σ α β : Type*} {δ : σ → α → Option σ} {s t : σ}

/-- The state after a list, if each element is accepted. -/
def scan (δ : σ → α → Option σ) : σ → List α → Option σ
  | s, [] => some s
  | s, a :: as => (δ s a).bind fun t => scan δ t as

@[simp] theorem scan_nil : scan δ s [] = some s := rfl

theorem scan_cons (a : α) (as : List α) : scan δ s (a :: as) = (δ s a).bind fun t => scan δ t as := rfl

theorem scan_append (as bs : List α) : scan δ s (as ++ bs) = (scan δ s as).bind fun t => scan δ t bs := by
  induction as generalizing s with
  | nil => rfl
  | cons a as ih =>
    rw [List.cons_append, scan_cons, scan_cons]
    cases δ s a with
    | none => rfl
    | some t => exact ih

theorem scan_singleton (a : α) : scan δ s [a] = δ s a := by
  rw [scan_cons]
  cases δ s a with
  | none => rfl
  | some t => rfl

theorem scan_map (f : β → α) (as : List β) : scan δ s (as.map f) = scan (fun s b => δ s (f b)) s as := by
  induction as generalizing s with
  | nil => rfl
  | cons a as ih =>
    rw [List.map_cons, scan_cons, scan_cons]
    cases δ s (f a) with
    | none => rfl
    | some t => exact ih

/-- The element is accepted in the state `s` alone, and leaves it. -/
def Rests (δ : σ → α → Option σ) (s : σ) (a : α) : Prop := δ s a = some s ∧ ∀ t u, δ t a = some u → t = s

theorem scan_rests {a : α} (ha : Rests δ s a) {r u : σ} {as bs : List α} (h : scan δ r (as ++ a :: bs) = some u) :
    scan δ r as = some s ∧ scan δ s bs = some u := by
  rw [scan_append, Option.bind_eq_some_iff] at h
  obtain ⟨t, has, hbs⟩ := h
  rw [scan_cons, Option.bind_eq_some_iff] at hbs
  obtain ⟨t', hstep, hbs⟩ := hbs
  obtain rfl := ha.2 t t' hstep
  rw [ha.1] at hstep
  obtain rfl := Option.some.inj hstep
  exact ⟨has, hbs⟩

theorem scan_rests_iff {a : α} (ha : Rests δ s a) {r u : σ} {as bs : List α} :
    scan δ r (as ++ a :: bs) = some u ↔ scan δ r as = some s ∧ scan δ s bs = some u := by
  constructor
  · exact scan_rests ha
  · rintro ⟨has, hbs⟩
    rw [scan_append, has, Option.bind_some, scan_cons, ha.1]
    exact hbs

/-- **A cut** between two elements that rest. -/
theorem scan_cut {a b : α} (ha : Rests δ s a) (hb : Rests δ s b) {r u : σ} {as mid bs : List α}
    (h : scan δ r (as ++ a :: (mid ++ b :: bs)) = some u) : scan δ r (as ++ b :: bs) = some u := by
  obtain ⟨has, hrest⟩ := scan_rests ha h
  obtain ⟨-, hbs⟩ := scan_rests hb hrest
  exact (scan_rests_iff hb).mpr ⟨has, hbs⟩

theorem scan_filter {p : α → Prop} [DecidablePred p] (hp : ∀ a, ¬ p a → Rests δ s a) {r u : σ} {as : List α}
    (h : scan δ r as = some u) : scan δ r (as.filter p) = some u := by
  induction as generalizing r with
  | nil => exact h
  | cons a as ih =>
    by_cases ha : p a
    · rw [List.filter_cons_of_pos (by simpa using ha), scan_cons]
      rw [scan_cons, Option.bind_eq_some_iff] at h
      obtain ⟨t, hstep, h⟩ := h
      rw [hstep]
      exact ih h
    · rw [List.filter_cons_of_neg (by simpa using ha)]
      rw [scan_cons, Option.bind_eq_some_iff] at h
      obtain ⟨t, hstep, h⟩ := h
      obtain rfl := (hp a ha).2 r t hstep
      rw [(hp a ha).1] at hstep
      rw [← Option.some.inj hstep] at h
      exact ih h

theorem scan_insert {a : α} (ha : Rests δ s a) {r u : σ} (as : List α) {bs : List α} (has : scan δ r as = some s)
    (h : scan δ r (as ++ bs) = some u) : scan δ r (as ++ a :: bs) = some u := by
  rw [scan_append, has] at h
  exact (scan_rests_iff ha).mpr ⟨has, h⟩

end Smara.Lib.Acceptor
