import Mathlib.Data.List.Nodup
import Mathlib.Algebra.Ring.Nat

/-! # Tables: lists of rows with a key

A table is the list of its rows in the order of their insertion. `updateWhere` and `deleteWhere`
are the statements `UPDATE … WHERE` and `DELETE … WHERE`, `lookup key k` is the row with the key
`k`, `upsert` is `INSERT … ON CONFLICT DO UPDATE`, and `Keyed` is the constraint that keys are
distinct.

* `lookup_updateWhere`: an update that leaves the keys alone acts on the row found.
* `lookup_eq_some_iff`: in a keyed table the row found is the row with the key.
* `foldl_inv`: the invariant rule of a loop over a list of rows, where the invariant may speak of
  the rows still to come. -/

namespace Smara.Lib.Table

variable {ρ κ : Type*}

/-- `UPDATE t SET f WHERE p`. -/
def updateWhere (p : ρ → Prop) [DecidablePred p] (f : ρ → ρ) (t : List ρ) : List ρ :=
  t.map fun r => if p r then f r else r

/-- `DELETE FROM t WHERE p`. -/
def deleteWhere (p : ρ → Prop) [DecidablePred p] (t : List ρ) : List ρ := t.filter fun r => ¬ p r

/-- The row with the key `k`. -/
def lookup [DecidableEq κ] (key : ρ → κ) (k : κ) (t : List ρ) : Option ρ :=
  t.find? fun r => key r = k

/-- `INSERT … ON CONFLICT(key) DO UPDATE`: the row with the key of `r` becomes `f` of it, and `r` is
inserted if there is none. -/
def upsert [DecidableEq κ] (key : ρ → κ) (r : ρ) (f : ρ → ρ) (t : List ρ) : List ρ :=
  if (∃ r' ∈ t, key r' = key r) then updateWhere (fun r' => key r' = key r) f t else t ++ [r]

/-- `ORDER BY … LIMIT 1`: the first of the rows that no other comes before. -/
def firstBy (before : ρ → ρ → Prop) [DecidableRel before] : List ρ → Option ρ
  | [] => none
  | r :: t =>
    match firstBy before t with
    | none => some r
    | some r' => if before r' r then some r' else some r

def Keyed (key : ρ → κ) (t : List ρ) : Prop := (t.map key).Nodup

instance [DecidableEq κ] (key : ρ → κ) (t : List ρ) : Decidable (Keyed key t) :=
  inferInstanceAs (Decidable (List.Nodup _))

section Update
variable {p : ρ → Prop} [DecidablePred p] {f : ρ → ρ} {key : ρ → κ} {t u : List ρ} {r : ρ} {k : κ}

theorem mem_updateWhere : r ∈ updateWhere p f t ↔ ∃ r' ∈ t, (if p r' then f r' else r') = r := by
  simp [updateWhere]

@[simp] theorem length_updateWhere : (updateWhere p f t).length = t.length := by
  simp [updateWhere]

theorem map_updateWhere {β : Type*} {g : ρ → β} (hf : ∀ r, p r → g (f r) = g r) :
    (updateWhere p f t).map g = t.map g := by
  simp only [updateWhere, List.map_map]
  refine List.map_congr_left fun r _ => ?_
  by_cases h : p r
  · simp [h, hf r h]
  · simp [h]

theorem keyed_updateWhere (hf : ∀ r, p r → key (f r) = key r) :
    Keyed key (updateWhere p f t) ↔ Keyed key t := by
  rw [Keyed, map_updateWhere hf, Keyed]

theorem updateWhere_eq_self (h : ∀ r ∈ t, ¬ p r) : updateWhere p f t = t := by
  unfold updateWhere
  conv_rhs => rw [← List.map_id t]
  exact List.map_congr_left fun r hr => by simp [h r hr]

theorem updateWhere_key_and {q : ρ → Prop} [DecidablePred q] [DecidableEq κ] (hk : Keyed key t) (hr : r ∈ t)
    (hq : q r) : updateWhere (fun r' => key r' = key r ∧ q r') f t = updateWhere (fun r' => key r' = key r) f t := by
  refine List.map_congr_left fun r' hr' => ?_
  by_cases h : key r' = key r
  · have : r' = r := List.inj_on_of_nodup_map hk hr' hr h
    subst this
    simp [hq]
  · simp [h]

theorem updateWhere_split (hk : Keyed key t) (hr : r ∈ t) (hp : p r) (hkey : ∀ r', p r' → key r' = key r) :
    ∃ pre post, t = pre ++ r :: post ∧ updateWhere p f t = pre ++ f r :: post := by
  obtain ⟨pre, post, rfl⟩ := List.append_of_mem hr
  refine ⟨pre, post, rfl, ?_⟩
  have hothers : ∀ r' ∈ pre ++ post, ¬ p r' := by
    intro r' hr' hp'
    have hnodup : (key r :: (pre ++ post).map key).Nodup := by
      refine (List.Perm.nodup_iff ?_).mp hk
      rw [List.map_append, List.map_cons, List.map_append]
      exact List.perm_middle
    exact (List.nodup_cons.mp hnodup).1 (hkey r' hp' ▸ List.mem_map_of_mem hr')
  have hpre : updateWhere p f pre = pre :=
    updateWhere_eq_self fun r' hr' => hothers r' (List.mem_append_left _ hr')
  have hpost : updateWhere p f post = post :=
    updateWhere_eq_self fun r' hr' => hothers r' (List.mem_append_right _ hr')
  unfold updateWhere at hpre hpost ⊢
  rw [List.map_append, List.map_cons, if_pos hp, hpre, hpost]

theorem filter_updateWhere_sublist {q : ρ → Prop} [DecidablePred q] (hq : ∀ r, p r → ¬ q (f r)) :
    ((updateWhere p f t).filter fun r => q r).Sublist (t.filter fun r => q r) := by
  induction t with
  | nil => exact List.Sublist.slnil
  | cons r t ih =>
    rw [updateWhere, List.map_cons]
    by_cases hp : p r
    · rw [if_pos hp, List.filter_cons_of_neg (by simpa using hq r hp)]
      refine ih.trans ?_
      rw [List.filter_cons]
      split_ifs
      · exact List.sublist_cons_self r _
      · exact List.Sublist.refl _
    · rw [if_neg hp, List.filter_cons, List.filter_cons]
      split_ifs
      · exact ih.cons_cons r
      · exact ih

theorem filter_updateWhere {q : ρ → Prop} [DecidablePred q] (hq : ∀ r, p r → (q (f r) ↔ q r)) :
    (updateWhere p f t).filter (fun r => q r) = updateWhere p f (t.filter fun r => q r) := by
  unfold updateWhere
  rw [List.filter_map]
  congr 1
  refine List.filter_congr fun r _ => decide_eq_decide.mpr ?_
  dsimp only
  by_cases hp : p r
  · rw [if_pos hp]
    exact hq r hp
  · rw [if_neg hp]

theorem updateWhere_updateWhere {g : ρ → ρ} (hf : ∀ r, p r → p (f r)) :
    updateWhere p g (updateWhere p f t) = updateWhere p (fun r => g (f r)) t := by
  simp only [updateWhere, List.map_map]
  refine List.map_congr_left fun r _ => ?_
  by_cases h : p r
  · simp [h, hf r h]
  · simp [h]

theorem mem_deleteWhere : r ∈ deleteWhere p t ↔ r ∈ t ∧ ¬ p r := by
  simp [deleteWhere]

section Map
variable {τ : Type*} {m : ρ → τ} {p' : τ → Prop} [DecidablePred p']

end Map

theorem Keyed.deleteWhere (h : Keyed key t) : Keyed key (deleteWhere p t) :=
  h.sublist (List.Sublist.map _ List.filter_sublist)

theorem keyed_append : Keyed key (t ++ u) ↔
    Keyed key t ∧ Keyed key u ∧ ∀ r ∈ t, ∀ r' ∈ u, key r ≠ key r' := by
  simp [Keyed, List.nodup_append]

theorem Keyed.eq_of_key (h : Keyed key t) {r' : ρ} (hr : r ∈ t) (hr' : r' ∈ t)
    (hk : key r = key r') : r = r' := List.inj_on_of_nodup_map h hr hr' hk

end Update

section Lookup
variable [DecidableEq κ] {p : ρ → Prop} [DecidablePred p] {f : ρ → ρ} {key : ρ → κ}
  {t u : List ρ} {r : ρ} {k : κ}

theorem mem_of_lookup (h : lookup key k t = some r) : r ∈ t := List.mem_of_find?_eq_some h

theorem key_of_lookup (h : lookup key k t = some r) : key r = k := by
  simpa using List.find?_some h

theorem lookup_eq_none : lookup key k t = none ↔ ∀ r ∈ t, key r ≠ k := by
  simp [lookup]

theorem lookup_eq_some_iff (h : Keyed key t) : lookup key k t = some r ↔ r ∈ t ∧ key r = k := by
  constructor
  · exact fun hr => ⟨mem_of_lookup hr, key_of_lookup hr⟩
  · rintro ⟨hr, hk⟩
    cases hl : lookup key k t with
    | none => exact absurd hk (lookup_eq_none.mp hl r hr)
    | some r' =>
      rw [h.eq_of_key (mem_of_lookup hl) hr ((key_of_lookup hl).trans hk.symm)]

theorem lookup_key (h : Keyed key t) (hr : r ∈ t) : lookup key (key r) t = some r :=
  (lookup_eq_some_iff h).mpr ⟨hr, rfl⟩

theorem lookup_append : lookup key k (t ++ u) = (lookup key k t).or (lookup key k u) := by
  simp [lookup, List.find?_append]

theorem lookup_map {κ' τ : Type*} [DecidableEq κ'] {m : ρ → τ} {key' : τ → κ'} {n : κ → κ'}
    (hn : Function.Injective n) (hk : ∀ r, key' (m r) = n (key r)) :
    lookup key' (n k) (t.map m) = (lookup key k t).map m := by
  simp only [lookup, List.find?_map]
  congr 2
  funext r
  simp [hk, hn.eq_iff]

/-- **An update acts on the row found.** -/
theorem lookup_updateWhere (hf : ∀ r, p r → key (f r) = key r) :
    lookup key k (updateWhere p f t) = (lookup key k t).map fun r => if p r then f r else r := by
  have hkey : ∀ r, key (if p r then f r else r) = key r := fun r => by
    by_cases h : p r
    · simp [h, hf r h]
    · simp [h]
  induction t with
  | nil => rfl
  | cons r t ih =>
    simp only [lookup, updateWhere, List.map_cons, List.find?_cons, hkey] at ih ⊢
    by_cases h : key r = k
    · simp [h]
    · simp [h, ih]

theorem lookup_updateWhere_map {β : Type*} {g : ρ → β} (hf : ∀ r, p r → key (f r) = key r)
    (hg : ∀ r, p r → g (f r) = g r) :
    (lookup key k (updateWhere p f t)).map g = (lookup key k t).map g := by
  rw [lookup_updateWhere hf, Option.map_map]
  cases lookup key k t with
  | none => rfl
  | some r =>
    by_cases h : p r
    · simp [h, hg r h]
    · simp [h]

theorem lookup_deleteWhere (h : ∀ r, key r = k → ¬ p r) :
    lookup key k (deleteWhere p t) = lookup key k t := by
  unfold lookup deleteWhere
  rw [List.find?_filter]
  congr 1
  funext r
  by_cases hk : key r = k
  · simp [hk, h r hk]
  · simp [hk]

theorem Keyed.upsert (h : Keyed key t) (hf : ∀ r', key r' = key r → key (f r') = key r) :
    Keyed key (upsert key r f t) := by
  unfold Table.upsert
  split_ifs with hex
  · exact (keyed_updateWhere fun r' hk => (hf r' hk).trans hk.symm).mpr h
  · refine keyed_append.mpr ⟨h, List.nodup_singleton _, fun r' hr' r'' hr'' hk => hex ?_⟩
    rw [List.mem_singleton] at hr''
    exact ⟨r', hr', hr'' ▸ hk⟩

theorem mem_upsert {r' : ρ} : r' ∈ Table.upsert key r f t ↔
    r' ∈ t ∧ key r' ≠ key r ∨ (∃ r'' ∈ t, key r'' = key r ∧ f r'' = r') ∨ (∀ r'' ∈ t, key r'' ≠ key r) ∧ r' = r := by
  unfold Table.upsert
  split_ifs with hex
  · obtain ⟨row, hrow, hkey⟩ := hex
    have hnone : ¬ ∀ r'' ∈ t, key r'' ≠ key r := fun h => h row hrow hkey
    rw [mem_updateWhere]
    constructor
    · rintro ⟨r'', hr'', rfl⟩
      split_ifs with hk
      · exact Or.inr (Or.inl ⟨r'', hr'', hk, rfl⟩)
      · exact Or.inl ⟨hr'', hk⟩
    · rintro (⟨hr', hk⟩ | ⟨r'', hr'', hk, rfl⟩ | ⟨h, -⟩)
      · exact ⟨r', hr', if_neg hk⟩
      · exact ⟨r'', hr'', if_pos hk⟩
      · exact absurd h hnone
  · push Not at hex
    rw [List.mem_append, List.mem_singleton]
    constructor
    · rintro (hr' | rfl)
      · exact Or.inl ⟨hr', hex r' hr'⟩
      · exact Or.inr (Or.inr ⟨hex, rfl⟩)
    · rintro (⟨hr', -⟩ | ⟨r'', hr'', hk, -⟩ | ⟨-, rfl⟩)
      · exact Or.inl hr'
      · exact absurd hk (hex r'' hr'')
      · exact Or.inr rfl

theorem sum_map_upsert_new {w : ρ → ℕ} (h : lookup key (key r) t = none) :
    ((upsert key r f t).map w).sum = (t.map w).sum + w r := by
  have hno : ¬ ∃ r' ∈ t, key r' = key r := fun ⟨r', hr', hk⟩ => lookup_eq_none.mp h r' hr' hk
  unfold upsert
  rw [if_neg hno, List.map_append, List.sum_append, List.map_singleton, List.sum_singleton]

theorem sum_map_upsert_old {w : ρ → ℕ} (hkeyed : Keyed key t) {r' : ρ}
    (h : lookup key (key r) t = some r') :
    ((upsert key r f t).map w).sum + w r' = (t.map w).sum + w (f r') := by
  have hr' : r' ∈ t := mem_of_lookup h
  have hkey : key r' = key r := key_of_lookup h
  unfold upsert
  rw [if_pos ⟨r', hr', hkey⟩]
  obtain ⟨t₁, t₂, rfl⟩ := List.append_of_mem hr'
  obtain ⟨-, hright, hleft⟩ := keyed_append.mp hkeyed
  have hhead : ∀ c ∈ t₁, key c ≠ key r := fun c hc =>
    hkey ▸ hleft c hc r' List.mem_cons_self
  have htail : ∀ c ∈ t₂, key c ≠ key r := by
    intro c hc hk
    exact (List.nodup_cons.mp hright).1 (List.mem_map.mpr ⟨c, hc, hk.trans hkey.symm⟩)
  have hfirst := updateWhere_eq_self (f := f) hhead
  have hlast := updateWhere_eq_self (f := f) htail
  unfold updateWhere at hfirst hlast ⊢
  rw [List.map_append, List.map_cons, hfirst, hlast, if_pos hkey]
  simp only [List.map_append, List.map_cons, List.sum_append, List.sum_cons]
  omega

/-- **The row found after an upsert.** -/
theorem lookup_upsert (hf : ∀ r', key r' = key r → key (f r') = key r) :
    lookup key k (upsert key r f t) =
      if k = key r then some (((lookup key k t).map f).getD r) else lookup key k t := by
  unfold upsert
  split_ifs with hex hk hk
  · obtain ⟨r', hr', hkey⟩ := hex
    rw [lookup_updateWhere fun r' h => (hf r' h).trans h.symm]
    cases hl : lookup key k t with
    | none => exact absurd (hkey.trans hk.symm) (lookup_eq_none.mp hl r' hr')
    | some r'' => simp [(key_of_lookup hl).trans hk]
  · rw [lookup_updateWhere fun r' h => (hf r' h).trans h.symm]
    cases hl : lookup key k t with
    | none => rfl
    | some r'' =>
      have hne : key r'' ≠ key r := fun h => hk ((key_of_lookup hl).symm.trans h)
      simp [hne]
  · have hnone : lookup key k t = none :=
      lookup_eq_none.mpr fun r' hr' h => hex ⟨r', hr', h.trans hk⟩
    rw [lookup_append, hnone]
    simp [lookup, hk]
  · rw [lookup_append]
    have hne : key r ≠ k := fun h => hk h.symm
    simp [lookup, hne]

end Lookup

theorem mem_of_firstBy {before : ρ → ρ → Prop} [DecidableRel before] {t : List ρ} {r : ρ}
    (h : firstBy before t = some r) : r ∈ t := by
  induction t generalizing r with
  | nil => simp [firstBy] at h
  | cons r' t ih =>
    simp only [firstBy] at h
    split at h
    · simp_all
    · next r'' hr =>
      split_ifs at h
      · rw [← Option.some.inj h]
        exact List.mem_cons_of_mem _ (ih hr)
      · rw [← Option.some.inj h]
        exact List.mem_cons_self

theorem firstBy_map {before : ρ → ρ → Prop} [DecidableRel before] {f : ρ → ρ}
    (hf : ∀ r r', before (f r) (f r') ↔ before r r') (t : List ρ) :
    firstBy before (t.map f) = (firstBy before t).map f := by
  induction t with
  | nil => rfl
  | cons r t ih =>
    rw [List.map_cons, firstBy, firstBy, ih]
    cases firstBy before t with
    | none => rfl
    | some r' =>
      simp only [Option.map_some, hf]
      split_ifs <;> rfl

theorem firstBy_append_singleton {before : ρ → ρ → Prop} [DecidableRel before] {t : List ρ} {r : ρ}
    (hr : r ∉ t) : firstBy before (t ++ [r]) = some r ↔ ∀ r' ∈ t, before r r' := by
  induction t with
  | nil => simp [firstBy]
  | cons a t ih =>
    have hne : a ≠ r := fun h => hr (h ▸ List.mem_cons_self)
    have ih := ih fun h => hr (List.mem_cons_of_mem a h)
    rw [List.cons_append, firstBy, List.forall_mem_cons, ← ih]
    constructor
    · intro h
      split at h
      · exact absurd (Option.some.inj h) hne
      · next r' hr' =>
        split_ifs at h with hlt
        · obtain rfl := Option.some.inj h
          exact ⟨hlt, hr'⟩
        · exact absurd (Option.some.inj h) hne
    · rintro ⟨hlt, hrest⟩
      rw [hrest]
      exact if_pos hlt

/-- **Loops.** An invariant of the rows still to come and of the state, kept by the body. -/
theorem foldl_inv {α σ : Type*} {f : σ → α → σ} {I : List α → σ → Prop}
    (hstep : ∀ a l s, I (a :: l) s → I l (f s a)) {l : List α} {s : σ} (h : I l s) :
    I [] (l.foldl f s) := by
  induction l generalizing s with
  | nil => exact h
  | cons a l ih => exact ih (hstep a l s h)

end Smara.Lib.Table
