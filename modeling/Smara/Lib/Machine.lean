import Mathlib.Algebra.BigOperators.Group.List.Basic

/-! # Machines: properties along a run

A machine is a step function `step : σ → α → σ` on states, driven by a list of calls. `run` is the
state after the calls, `Along P` says that `P` holds of every call with the state it meets, and
`total w` adds up a weight of the calls.

* `inv_run`, `along_of_inv`: an invariant kept by every call that satisfies `G` holds throughout
  a run along which `G` holds.
* `along_or_broken`: a run along which `G` does not hold ends in a broken state.
* `along_iff_of_inv`: if `P` and `G` agree under the invariant, a run has `P` along it exactly
  when it has `G` along it.
* `total_add_le`: a potential that every call raises by at least its weight bounds the total.
* `run_eq_add_outputs`: a quantity to which every call adds the weight of its output.
* `outputs_nodup`: what is put out only while it is not done, and then is done for good, is put out
  once.
* `exists_call_of_run`: what a run brings about is brought about by one of its calls. -/

namespace Smara.Lib.Machine

variable {σ α : Type*} (step : σ → α → σ)

/-- The state after the calls `as`. -/
def run (s : σ) (as : List α) : σ := as.foldl step s

/-- `P` holds of every call and the state the call meets. -/
def Along (P : σ → α → Prop) : σ → List α → Prop
  | _, [] => True
  | s, a :: as => P s a ∧ Along P (step s a) as

/-- The calls of two lists in an order that keeps both. -/
inductive Interleaves : List α → List α → List α → Prop
  | nil : Interleaves [] [] []
  | left {a as bs cs} (h : Interleaves as bs cs) : Interleaves (a :: as) bs (a :: cs)
  | right {b as bs cs} (h : Interleaves as bs cs) : Interleaves as (b :: bs) (b :: cs)

/-- The states reached from `s₀`. -/
def Reachable (s₀ s : σ) : Prop := ∃ as, run step s₀ as = s

/-- The sum of the weights of the calls. -/
def total (w : σ → α → ℕ) : σ → List α → ℕ
  | _, [] => 0
  | s, a :: as => w s a + total w (step s a) as

/-- What the calls put out, in their order. -/
def outputs {β : Type*} (f : σ → α → Option β) : σ → List α → List β
  | _, [] => []
  | s, a :: as => (f s a).toList ++ outputs f (step s a) as

variable {step}

@[simp] theorem run_nil (s : σ) : run step s [] = s := rfl

@[simp] theorem run_cons (s : σ) (a : α) (as : List α) :
    run step s (a :: as) = run step (step s a) as := rfl

theorem interleaves_nil_left {bs cs : List α} : Interleaves [] bs cs ↔ cs = bs := by
  constructor
  · intro h
    induction bs generalizing cs with
    | nil =>
      cases h
      rfl
    | cons b bs ih =>
      cases h with
      | right h => rw [ih h]
  · rintro rfl
    induction cs with
    | nil => exact .nil
    | cons c cs ih => exact .right ih

theorem interleaves_nil_right {as cs : List α} : Interleaves as [] cs ↔ cs = as := by
  constructor
  · intro h
    induction as generalizing cs with
    | nil =>
      cases h
      rfl
    | cons a as ih =>
      cases h with
      | left h => rw [ih h]
  · rintro rfl
    induction cs with
    | nil => exact .nil
    | cons c cs ih => exact .left ih

theorem interleaves_cons_cons {a b : α} {as bs ds : List α} : Interleaves (a :: as) (b :: bs) ds ↔
    (∃ cs, Interleaves as (b :: bs) cs ∧ ds = a :: cs) ∨
      ∃ cs, Interleaves (a :: as) bs cs ∧ ds = b :: cs := by
  constructor
  · intro h
    cases h with
    | left h => exact Or.inl ⟨_, h, rfl⟩
    | right h => exact Or.inr ⟨_, h, rfl⟩
  · rintro (⟨cs, h, rfl⟩ | ⟨cs, h, rfl⟩)
    · exact .left h
    · exact .right h

theorem run_append (s : σ) (as bs : List α) :
    run step s (as ++ bs) = run step (run step s as) bs := List.foldl_append

@[simp] theorem along_nil {P : σ → α → Prop} {s : σ} : Along step P s [] := trivial

@[simp] theorem along_cons {P : σ → α → Prop} {s : σ} {a : α} {as : List α} :
    Along step P s (a :: as) ↔ P s a ∧ Along step P (step s a) as := Iff.rfl

instance decidableAlong (P : σ → α → Prop) [∀ s a, Decidable (P s a)] :
    ∀ (s : σ) (as : List α), Decidable (Along step P s as)
  | _, [] => .isTrue trivial
  | s, a :: as =>
    have := decidableAlong P (step s a) as
    inferInstanceAs (Decidable (_ ∧ _))

theorem Reachable.run {s₀ s : σ} (h : Reachable step s₀ s) (as : List α) :
    Reachable step s₀ (run step s as) := by
  obtain ⟨bs, rfl⟩ := h
  exact ⟨bs ++ as, run_append s₀ bs as⟩

section Along
variable {P Q G : σ → α → Prop} {I : σ → Prop}

theorem along_append {s : σ} {as bs : List α} :
    Along step P s (as ++ bs) ↔ Along step P s as ∧ Along step P (run step s as) bs := by
  induction as generalizing s with
  | nil => simp
  | cons a as ih => simp [ih, and_assoc]

theorem along_and {s : σ} {as : List α} :
    Along step (fun s a => P s a ∧ Q s a) s as ↔ Along step P s as ∧ Along step Q s as := by
  induction as generalizing s with
  | nil => simp
  | cons a as ih =>
    simp only [along_cons, ih]
    exact and_and_and_comm

theorem along_of_forall {R : α → Prop} {s : σ} {as : List α} (h : ∀ a ∈ as, R a) :
    Along step (fun _ a => R a) s as := by
  induction as generalizing s with
  | nil => trivial
  | cons a as ih => exact ⟨h a (by simp), ih fun b hb => h b (by simp [hb])⟩

theorem Along.mono (h : ∀ s a, P s a → Q s a) {s : σ} {as : List α} (hP : Along step P s as) :
    Along step Q s as := by
  induction as generalizing s with
  | nil => trivial
  | cons a as ih => exact ⟨h s a hP.1, ih hP.2⟩

/-- **The invariant rule.** -/
theorem inv_run (hstep : ∀ s a, I s → G s a → I (step s a)) {s : σ} {as : List α} (hI : I s)
    (hG : Along step G s as) : I (run step s as) := by
  induction as generalizing s with
  | nil => exact hI
  | cons a as ih => exact ih (hstep s a hI hG.1) hG.2

theorem along_of_inv (hstep : ∀ s a, I s → G s a → I (step s a))
    (hP : ∀ s a, I s → G s a → P s a) {s : σ} {as : List α} (hI : I s)
    (hG : Along step G s as) : Along step P s as := by
  induction as generalizing s with
  | nil => trivial
  | cons a as ih => exact ⟨hP s a hI hG.1, ih (hstep s a hI hG.1) hG.2⟩

theorem exists_of_mem (hstep : ∀ s a, I s → G s a → I (step s a)) {s : σ} {as : List α} (hI : I s)
    (hG : Along step G s as) {a : α} (ha : a ∈ as) : ∃ s', I s' ∧ G s' a := by
  induction as generalizing s with
  | nil => simp at ha
  | cons b as ih =>
    rcases List.mem_cons.mp ha with rfl | ha
    · exact ⟨s, hI, hG.1⟩
    · exact ih (hstep s b hI hG.1) hG.2 ha

/-- **The breaking rule.** If the guard keeps the invariant, a call that violates it breaks the state,
and what is broken stays so, then a run satisfies the guard throughout or ends broken. -/
theorem along_or_broken {B : σ → Prop} (hstep : ∀ s a, I s → G s a → I (step s a))
    (hbreak : ∀ s a, I s → ¬ G s a → B (step s a)) (hstay : ∀ s a, B s → B (step s a)) {s : σ}
    {as : List α} (hI : I s) : (Along step G s as ∧ I (run step s as)) ∨ B (run step s as) := by
  induction as generalizing s with
  | nil => exact Or.inl ⟨trivial, hI⟩
  | cons a as ih =>
    by_cases hG : G s a
    · exact (ih (hstep s a hI hG)).imp_left fun h => ⟨⟨hG, h.1⟩, h.2⟩
    · have hany : Along step (fun _ _ => True) (step s a) as := along_of_forall fun _ _ => trivial
      have hrun : B (run step (step s a) as) :=
        inv_run (fun s a hB _ => hstay s a hB) (hbreak s a hI hG) hany
      exact Or.inr hrun

/-- **Exact conditions.** If the guard keeps the invariant, and under the invariant a call has the
property exactly when it meets the guard, the same holds of runs. -/
theorem along_iff_of_inv (hstep : ∀ s a, I s → G s a → I (step s a))
    (hiff : ∀ s a, I s → (P s a ↔ G s a)) {s : σ} {as : List α} (hI : I s) :
    Along step P s as ↔ Along step G s as := by
  induction as generalizing s with
  | nil => simp
  | cons a as ih =>
    simp only [along_cons, hiff s a hI]
    exact and_congr_right fun hG => ih (hstep s a hI hG)

theorem stretches_iff {R : σ → σ → Prop} (hrefl : ∀ s, R s s) (htrans : ∀ s t u, R s t → R t u → R s u) {s : σ}
    {as : List α} : (∀ pre mid post, as = pre ++ mid ++ post → R (run step s pre) (run step s (pre ++ mid))) ↔
      Along step (fun s a => R s (step s a)) s as := by
  constructor
  · intro h
    induction as generalizing s with
    | nil => trivial
    | cons a as ih =>
      refine ⟨h [] [a] as rfl, ih fun pre mid post heq => ?_⟩
      exact h (a :: pre) mid post (by rw [heq]; rfl)
  · rintro h pre mid post rfl
    rw [along_append, along_append] at h
    rw [run_append]
    obtain ⟨⟨-, hmid⟩, -⟩ := h
    generalize run step s pre = t at hmid
    induction mid generalizing t with
    | nil => exact hrefl t
    | cons a mid ih => exact htrans _ _ _ hmid.1 (ih (step t a) hmid.2)

theorem prefixes_iff {R : σ → Prop} {s : σ} {as : List α} :
    (∀ pre post, as = pre ++ post → R (run step s pre)) ↔ R s ∧ Along step (fun s a => R (step s a)) s as := by
  induction as generalizing s with
  | nil =>
    constructor
    · intro h
      exact ⟨h [] [] rfl, trivial⟩
    · rintro ⟨hR, -⟩ pre post heq
      obtain ⟨rfl, -⟩ := List.append_eq_nil_iff.mp heq.symm
      exact hR
  | cons a as ih =>
    rw [along_cons, ← ih]
    constructor
    · intro h
      exact ⟨h [] (a :: as) rfl, fun pre post heq => h (a :: pre) post (by rw [heq]; rfl)⟩
    · rintro ⟨hR, h⟩ pre post heq
      cases pre with
      | nil => exact hR
      | cons b pre =>
        obtain ⟨rfl, hrest⟩ := List.cons.inj heq
        exact h pre post hrest

theorem inv_reachable (hstep : ∀ s a, I s → I (step s a)) {s₀ s : σ} (h₀ : I s₀)
    (h : Reachable step s₀ s) : I s := by
  obtain ⟨as, rfl⟩ := h
  induction as generalizing s₀ with
  | nil => exact h₀
  | cons a as ih => exact ih (hstep s₀ a h₀)

end Along

section Total
variable {G : σ → α → Prop} {I : σ → Prop} {w : σ → α → ℕ} {φ : σ → ℕ}

/-- **The potential rule**: a call raises the potential by at least its weight. -/
theorem total_add_le (hstep : ∀ s a, I s → G s a → I (step s a))
    (hw : ∀ s a, I s → G s a → φ s + w s a ≤ φ (step s a)) {s : σ} {as : List α} (hI : I s)
    (hG : Along step G s as) : φ s + total step w s as ≤ φ (run step s as) := by
  induction as generalizing s with
  | nil => simp [total]
  | cons a as ih =>
    have h1 := hw s a hI hG.1
    have h2 := ih (hstep s a hI hG.1) hG.2
    simp only [total, run_cons]
    omega

/-- **Counters**: calls that raise a counter, and leave it below a limit, are fewer than the limit. -/
theorem total_lt {limit : ℕ} (hpos : 0 < limit) (hstep : ∀ s a, I s → G s a → I (step s a))
    (hmono : ∀ s a, I s → G s a → φ s ≤ φ (step s a))
    (hw : ∀ s a, I s → G s a → w s a = 0 ∨ w s a = 1 ∧ φ (step s a) = φ s + 1 ∧ φ (step s a) < limit)
    {s : σ} {as : List α} (hI : I s) (hG : Along step G s as) : total step w s as < limit := by
  have hraise : ∀ s a, I s → G s a → min (φ s) (limit - 1) + w s a ≤ min (φ (step s a)) (limit - 1) := by
    intro s a hI hG
    have hle := hmono s a hI hG
    rcases hw s a hI hG with h | ⟨h, hφ, hlt⟩
    · omega
    · omega
  have hbound := total_add_le (φ := fun s => min (φ s) (limit - 1)) hstep hraise hI hG
  have hlast := Nat.min_le_right (φ (run step s as)) (limit - 1)
  omega

/-- **The counting rule**: what every call adds to a quantity is what its output weighs. -/
theorem run_eq_add_outputs {M β : Type*} [AddMonoid M] {φ : σ → M} {f : σ → α → Option β} {v : β → M}
    (hstep : ∀ s a, I s → G s a → I (step s a))
    (hv : ∀ s a, I s → G s a → φ (step s a) = φ s + ((f s a).toList.map v).sum) {s : σ} {as : List α}
    (hI : I s) (hG : Along step G s as) :
    φ (run step s as) = φ s + ((outputs step f s as).map v).sum := by
  induction as generalizing s with
  | nil => simp [outputs]
  | cons a as ih =>
    have h1 := hv s a hI hG.1
    have h2 := ih (hstep s a hI hG.1) hG.2
    rw [run_cons, h2, h1, outputs, List.map_append, List.sum_append, add_assoc]

/-- What holds of every stretch of a run with what it puts out, if it is so of two stretches that follow one
another, is what holds of every call. -/
theorem stretches_outputs_iff {β : Type*} {f : σ → α → Option β} {R : List β → σ → σ → Prop}
    (hrefl : ∀ s, R [] s s) (htrans : ∀ xs ys s t u, R xs s t → R ys t u → R (xs ++ ys) s u) {s : σ}
    {as : List α} : (∀ pre mid post, as = pre ++ mid ++ post →
        R (outputs step f (run step s pre) mid) (run step s pre) (run step s (pre ++ mid))) ↔
      Along step (fun s a => R (f s a).toList s (step s a)) s as := by
  constructor
  · intro h
    induction as generalizing s with
    | nil => trivial
    | cons a as ih =>
      refine ⟨?_, ih fun pre mid post heq => h (a :: pre) mid post (by rw [heq]; rfl)⟩
      have hfirst := h [] [a] as rfl
      rwa [outputs, outputs, List.append_nil] at hfirst
  · rintro h pre mid post rfl
    rw [along_append, along_append] at h
    rw [run_append]
    obtain ⟨⟨-, hmid⟩, -⟩ := h
    generalize run step s pre = t at hmid
    induction mid generalizing t with
    | nil => exact hrefl t
    | cons a mid ih => exact htrans _ _ _ _ _ hmid.1 (ih (step t a) hmid.2)

/-- **At most once**, in a run whose calls are as they should be. -/
theorem outputs_nodup_along {β : Type*} {f : σ → α → Option β} {D : σ → β → Prop}
    (hstep : ∀ s a, I s → G s a → I (step s a))
    (hnew : ∀ s a b, I s → G s a → f s a = some b → ¬ D s b ∧ D (step s a) b)
    (hstay : ∀ s a b, I s → G s a → D s b → D (step s a) b) {s : σ} {as : List α} (hI : I s)
    (hG : Along step G s as) : (outputs step f s as).Nodup ∧ ∀ b ∈ outputs step f s as, ¬ D s b := by
  induction as generalizing s with
  | nil => exact ⟨List.nodup_nil, fun b hb => absurd hb List.not_mem_nil⟩
  | cons a as ih =>
    obtain ⟨hrest, hopen⟩ := ih (hstep s a hI hG.1) hG.2
    have hopen' : ∀ b ∈ outputs step f (step s a) as, ¬ D s b :=
      fun b hb hd => hopen b hb (hstay s a b hI hG.1 hd)
    rw [outputs]
    cases hf : f s a with
    | none => exact ⟨hrest, hopen'⟩
    | some b =>
      obtain ⟨hs, hdone⟩ := hnew s a b hI hG.1 hf
      refine ⟨List.nodup_cons.mpr ⟨fun hb => hopen b hb hdone, hrest⟩, fun b' hb' => ?_⟩
      rcases List.mem_cons.mp hb' with rfl | hb'
      · exact hs
      · exact hopen' b' hb'

/-- **At most once.** -/
theorem outputs_nodup {β : Type*} {f : σ → α → Option β} {D : σ → β → Prop}
    (hstep : ∀ s a, I s → I (step s a))
    (hnew : ∀ s a b, I s → f s a = some b → ¬ D s b ∧ D (step s a) b)
    (hstay : ∀ s a b, I s → D s b → D (step s a) b) {s : σ} {as : List α} (hI : I s) :
    (outputs step f s as).Nodup ∧ ∀ b ∈ outputs step f s as, ¬ D s b :=
  outputs_nodup_along (G := fun _ _ => True) (fun s a h _ => hstep s a h) (fun s a b h _ => hnew s a b h)
    (fun s a b h _ => hstay s a b h) hI (along_of_forall fun _ _ => trivial)

end Total

/-- **Causes.** A run from a state without the property to a state with it has a call that brings the
property about. -/
theorem exists_call_of_run {P : σ → Prop} {s : σ} {as : List α} (h₀ : ¬ P s) (h : P (run step s as)) :
    ∃ bs a cs, as = bs ++ a :: cs ∧ ¬ P (run step s bs) ∧ P (step (run step s bs) a) := by
  induction as generalizing s with
  | nil => exact absurd h h₀
  | cons a as ih =>
    by_cases ha : P (step s a)
    · exact ⟨[], a, as, rfl, h₀, ha⟩
    · obtain ⟨bs, b, cs, rfl, hb, hb'⟩ := ih ha h
      exact ⟨a :: bs, b, cs, rfl, hb, hb'⟩

end Smara.Lib.Machine
