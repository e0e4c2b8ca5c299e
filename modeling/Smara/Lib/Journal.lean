import Mathlib.Data.List.Basic

/-! # Journals with streams that end

The entries of a journal belong to streams. A stream is opened by its first entries and closed by an
entry of the kind `closing`; a lawful writer appends to streams that are open, and closes a stream
with its last entry. In a lawful journal the entries of a closed stream end with the only entry of the
kind `closing`; an entry that comes later breaks the journal for good.

* `Lawful.writes`: lawful writes keep a journal lawful.
* `broken_of_late`, `Broken.extends`: an entry after the closing entry breaks the journal, and it
  stays broken.
* `ended_iff`: in a journal with growing numbers, a stream has ended exactly when it has one closing
  entry and none with a larger number. -/

namespace Smara.Lib.Journal

variable {τ κ ρ : Type*}

/-- How a stream stands. -/
inductive Standing
  | new | opened | closed
  deriving DecidableEq

structure Streams (τ ρ : Type*) where
  standing : τ → Standing
  entries : List ρ

/-! ### One stream -/

section Stream
variable (closing : κ)

/-- The kinds of the entries of a stream that stands so. -/
def Fits : Standing → List κ → Prop
  | .new, ks => ks = []
  | .opened, ks => closing ∉ ks
  | .closed, ks => ∃ ks', ks = ks' ++ [closing] ∧ closing ∉ ks'

/-- What a lawful writer does to a stream: the kinds it writes, and how the stream stands then. -/
inductive Step : Standing → List κ → Standing → Prop
  | opens {ks} (h : closing ∉ ks) : Step .new ks .opened
  | speaks {ks} (h : closing ∉ ks) : Step .opened ks .opened
  | closes {ks} (h : closing ∉ ks) : Step .opened (ks ++ [closing]) .closed

variable {closing}

theorem Fits.step {s s' : Standing} {ks ks' : List κ} (h : Fits closing s ks)
    (hs : Step closing s ks' s') : Fits closing s' (ks ++ ks') := by
  cases hs with
  | opens hk =>
    rw [show ks = [] from h]
    exact hk
  | speaks hk => exact fun hc => (List.mem_append.mp hc).elim h hk
  | @closes ks'' hk =>
    refine ⟨ks ++ ks'', (List.append_assoc _ _ _).symm, fun hc => ?_⟩
    exact (List.mem_append.mp hc).elim h hk

theorem Fits.notMem_dropLast {ks : List κ} (h : Fits closing .closed ks) : closing ∉ ks.dropLast := by
  obtain ⟨ks', rfl, hk⟩ := h
  rwa [List.dropLast_concat]

end Stream

/-! ### Journals -/

variable [DecidableEq τ] {stream : ρ → τ} {kind : ρ → κ} {closing : κ} {t : τ} {l l' rs : List ρ}
  {j j' : Streams τ ρ}

section Def
variable (stream : ρ → τ) (kind : ρ → κ) (closing : κ)

def kinds (t : τ) (l : List ρ) : List κ := (l.filter fun r => stream r = t).map kind

def Lawful (j : Streams τ ρ) : Prop :=
  ∀ t, Fits closing (j.standing t) (kinds stream kind t j.entries)

def Broken (j : Streams τ ρ) : Prop :=
  ∃ t, j.standing t = .closed ∧ closing ∈ (kinds stream kind t j.entries).dropLast

inductive Writes (j j' : Streams τ ρ) : Prop
  | mk {t : τ} {rs : List ρ} (hrs : ∀ r ∈ rs, stream r = t)
      (hstep : Step closing (j.standing t) (rs.map kind) (j'.standing t))
      (hother : ∀ t', t' ≠ t → j'.standing t' = j.standing t') (he : j'.entries = j.entries ++ rs)

end Def

/-- The closed streams stay closed, and entries are only appended. -/
structure Extends (j j' : Streams τ ρ) : Prop where
  closed : ∀ t, j.standing t = .closed → j'.standing t = .closed
  entries : j.entries <+: j'.entries

theorem kinds_append :
    kinds stream kind t (l ++ l') = kinds stream kind t l ++ kinds stream kind t l' := by
  simp [kinds]

theorem kinds_self (h : ∀ r ∈ rs, stream r = t) : kinds stream kind t rs = rs.map kind := by
  unfold kinds
  rw [List.filter_eq_self.mpr fun r hr => decide_eq_true (h r hr)]

theorem kinds_other {t' : τ} (h : ∀ r ∈ rs, stream r = t) (hne : t' ≠ t) :
    kinds stream kind t' rs = [] := by
  have hnone : ∀ r ∈ rs, ¬ decide (stream r = t') = true :=
    fun r hr hr' => hne ((of_decide_eq_true hr').symm.trans (h r hr))
  unfold kinds
  rw [List.filter_eq_nil_iff.mpr hnone, List.map_nil]

/-- **Lawful writes keep a journal lawful.** -/
theorem Lawful.writes (h : Lawful stream kind closing j) (hw : Writes stream kind closing j j') :
    Lawful stream kind closing j' := by
  obtain @⟨t, rs, hrs, hstep, hother, he⟩ := hw
  intro t'
  rw [he, kinds_append]
  by_cases hne : t' = t
  · subst hne
    rw [kinds_self hrs]
    exact (h t').step hstep
  · rw [kinds_other hrs hne, List.append_nil, hother t' hne]
    exact h t'

theorem Broken.extends (h : Broken stream kind closing j) (he : Extends j j') :
    Broken stream kind closing j' := by
  obtain ⟨t, hs, hk⟩ := h
  obtain ⟨rs, hrs⟩ := he.entries
  refine ⟨t, he.closed t hs, ?_⟩
  rw [← hrs, kinds_append]
  cases hks : kinds stream kind t rs with
  | nil =>
    rw [List.append_nil]
    exact hk
  | cons k ks =>
    rw [List.dropLast_append_of_ne_nil (List.cons_ne_nil k ks)]
    exact List.mem_append_left _ ((List.dropLast_subset _) hk)

/-- **An entry after the closing entry breaks the journal.** -/
theorem broken_of_late {l₁ l₂ : List ρ} {r r' : ρ} (hs : j.standing t = .closed)
    (he : j.entries = l₁ ++ r :: l₂) (hr : stream r = t) (hk : kind r = closing) (hr' : r' ∈ l₂)
    (ht : stream r' = t) : Broken stream kind closing j := by
  refine ⟨t, hs, ?_⟩
  have hlate : kind r' ∈ kinds stream kind t l₂ :=
    List.mem_map_of_mem (List.mem_filter.mpr ⟨hr', decide_eq_true ht⟩)
  have hcons : kinds stream kind t (r :: l₂) = closing :: kinds stream kind t l₂ := by
    simp [kinds, hr, hk]
  rw [he, kinds_append, hcons, List.dropLast_append_of_ne_nil (List.cons_ne_nil _ _),
    List.dropLast_cons_of_ne_nil (List.ne_nil_of_mem hlate)]
  exact List.mem_append_right _ List.mem_cons_self

theorem Lawful.late (h : Lawful stream kind closing j) {r : ρ} (hs : j.standing t = .closed)
    (hs' : j'.standing t = .closed) (he : j'.entries = j.entries ++ rs) (hr : r ∈ rs)
    (ht : stream r = t) : Broken stream kind closing j' := by
  have hfits := h t
  rw [hs] at hfits
  obtain ⟨ks, hks, -⟩ := hfits
  have hmem : closing ∈ kinds stream kind t j.entries := by
    rw [hks]
    exact List.mem_append_right _ (List.mem_singleton_self closing)
  obtain ⟨c, hc, hk⟩ := List.mem_map.mp hmem
  obtain ⟨hc, hct⟩ := List.mem_filter.mp hc
  obtain ⟨l₁, l₂, hl⟩ := List.append_of_mem hc
  have hentries : j'.entries = l₁ ++ c :: (l₂ ++ rs) := by
    rw [he, hl, List.append_assoc, List.cons_append]
  exact broken_of_late hs' hentries (of_decide_eq_true hct) hk (List.mem_append_right _ hr) ht

/-! ### Numbers -/

section Numbers
variable [DecidableEq κ] {seq : ρ → ℕ}

/-- **A stream has ended exactly when it has one closing entry and none with a larger number.** -/
theorem ended_iff (hseq : l.Pairwise fun r r' => seq r < seq r') :
    Fits closing .closed (kinds stream kind t l) ↔
      (l.filter fun r => stream r = t ∧ kind r = closing).length = 1 ∧
      ∀ c ∈ l, stream c = t → kind c = closing → ∀ r ∈ l, stream r = t → seq r ≤ seq c := by
  have hfilter : (l.filter fun r => stream r = t ∧ kind r = closing) =
      (l.filter fun r => stream r = t).filter fun r => kind r = closing := by
    rw [List.filter_filter]
    refine List.filter_congr fun r _ => ?_
    rw [Bool.decide_and, Bool.and_comm]
  have hsub := hseq.filter fun r => stream r = t
  rw [hfilter]
  unfold kinds
  have hmem : ∀ r, r ∈ l ∧ stream r = t ↔ r ∈ l.filter fun r => stream r = t := by
    intro r
    rw [List.mem_filter, decide_eq_true_iff]
  generalize l.filter (fun r => stream r = t) = m at hsub hmem ⊢
  constructor
  · rintro ⟨ks, hks, hk⟩
    obtain ⟨m₀, m₁, rfl, rfl, hm₁⟩ := List.map_eq_append_iff.mp hks
    obtain ⟨c, rfl, hc⟩ := List.map_eq_singleton_iff.mp hm₁
    have hnone : (m₀.filter fun r => kind r = closing) = [] := by
      refine List.filter_eq_nil_iff.mpr fun r hr hr' => hk ?_
      exact List.mem_map.mpr ⟨r, hr, of_decide_eq_true hr'⟩
    refine ⟨?_, fun c' hc' ht' hk' r hr ht => ?_⟩
    · rw [List.filter_append, hnone]
      simp [hc]
    · have hc'' := (hmem c').mp ⟨hc', ht'⟩
      have hr'' := (hmem r).mp ⟨hr, ht⟩
      rcases List.mem_append.mp hc'' with hc₀ | hc₁
      · exact absurd (List.mem_map.mpr ⟨c', hc₀, hk'⟩) hk
      · obtain rfl := List.mem_singleton.mp hc₁
        rcases List.mem_append.mp hr'' with hr₀ | hr₁
        · exact Nat.le_of_lt ((List.pairwise_append.mp hsub).2.2 r hr₀ c' hc₁)
        · exact Nat.le_of_eq (congrArg seq (List.mem_singleton.mp hr₁))
  · rintro ⟨hone, hlast⟩
    obtain ⟨c, hc⟩ := List.length_eq_one_iff.mp hone
    have hcm : c ∈ m ∧ kind c = closing := by
      have hcf : c ∈ m.filter fun r => kind r = closing := by
        rw [hc]
        exact List.mem_singleton_self c
      obtain ⟨hcm, hk⟩ := List.mem_filter.mp hcf
      exact ⟨hcm, of_decide_eq_true hk⟩
    obtain ⟨m₀, m₁, rfl⟩ := List.append_of_mem hcm.1
    obtain ⟨hcl, hct⟩ := (hmem c).mpr hcm.1
    have hnil : m₁ = [] := by
      refine List.eq_nil_iff_forall_not_mem.mpr fun r hr => ?_
      obtain ⟨hrl, hrt⟩ := (hmem r).mpr (List.mem_append_right _ (List.mem_cons_of_mem _ hr))
      have hlt := (List.pairwise_cons.mp (List.pairwise_append.mp hsub).2.1).1 r hr
      exact absurd (hlast c hcl hct hcm.2 r hrl hrt) (Nat.not_le_of_lt hlt)
    subst hnil
    refine ⟨m₀.map kind, ?_, fun hk => ?_⟩
    · rw [List.map_append, List.map_singleton, hcm.2]
    · obtain ⟨r, hr, hrk⟩ := List.mem_map.mp hk
      have hlen := congrArg List.length hc
      rw [List.filter_append, List.length_append] at hlen
      have hpos : 0 < (m₀.filter fun r => kind r = closing).length :=
        List.length_pos_of_mem (List.mem_filter.mpr ⟨hr, decide_eq_true hrk⟩)
      have hone : ([c].filter fun r => kind r = closing).length = 1 := by simp [hcm.2]
      rw [hone] at hlen
      simp only [List.length_singleton] at hlen
      omega

end Numbers

end Smara.Lib.Journal
