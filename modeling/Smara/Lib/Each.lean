import Mathlib.Data.List.Forall2

/-! # Lists that correspond, member by member

`List.Forall₂ R as bs` says that the members of two lists correspond in their order.

* `forall₂_split_left`, `forall₂_split_right`: where one of the lists is split, the other one is.
* `forall₂_mem_left`, `forall₂_mem_right`: every member of one list has one of the other.
* `mapM_eq_some_iff`: a loop of which no call fails gives the results of the calls. -/

namespace Smara.Lib.Each

section Forall
variable {α β : Type*} {R : α → β → Prop} {as : List α} {bs : List β}

theorem forall₂_split_left {pre post : List α} {a : α} (h : List.Forall₂ R (pre ++ a :: post) bs) :
    ∃ pre' b post', bs = pre' ++ b :: post' ∧ List.Forall₂ R pre pre' ∧ R a b ∧ List.Forall₂ R post post' := by
  induction pre generalizing bs with
  | nil =>
    obtain ⟨b, post', hab, hpost, rfl⟩ := List.forall₂_cons_left_iff.mp h
    exact ⟨[], b, post', rfl, .nil, hab, hpost⟩
  | cons x pre ih =>
    obtain ⟨y, bs', hxy, hbs, rfl⟩ := List.forall₂_cons_left_iff.mp h
    obtain ⟨pre', b, post', rfl, hpre, hab, hpost⟩ := ih hbs
    exact ⟨y :: pre', b, post', rfl, .cons hxy hpre, hab, hpost⟩

theorem forall₂_split_right {pre post : List β} {b : β} (h : List.Forall₂ R as (pre ++ b :: post)) :
    ∃ pre' a post', as = pre' ++ a :: post' ∧ List.Forall₂ R pre' pre ∧ R a b ∧ List.Forall₂ R post' post := by
  obtain ⟨pre', a, post', has, hpre, hab, hpost⟩ := forall₂_split_left h.flip
  exact ⟨pre', a, post', has, hpre.flip, hab, hpost.flip⟩

theorem forall₂_mem_left (h : List.Forall₂ R as bs) {a : α} (ha : a ∈ as) : ∃ b ∈ bs, R a b := by
  obtain ⟨pre, post, rfl⟩ := List.append_of_mem ha
  obtain ⟨pre', b, post', rfl, -, hab, -⟩ := forall₂_split_left h
  exact ⟨b, by simp, hab⟩

theorem forall₂_mem_right (h : List.Forall₂ R as bs) {b : β} (hb : b ∈ bs) : ∃ a ∈ as, R a b := by
  obtain ⟨a, ha, hab⟩ := forall₂_mem_left h.flip hb
  exact ⟨a, ha, hab⟩

end Forall

section Loop
variable {α β : Type*} {f : α → Option β} {as : List α} {bs : List β}

/-- **A loop of calls that may fail.** -/
theorem mapM_eq_some_iff : as.mapM f = some bs ↔ List.Forall₂ (fun a b => f a = some b) as bs := by
  induction as generalizing bs with
  | nil =>
    rw [List.forall₂_nil_left_iff, List.mapM_nil]
    exact Option.some_inj.trans eq_comm
  | cons a as ih =>
    rw [List.mapM_cons, List.forall₂_cons_left_iff]
    simp only [Option.bind_eq_bind, Option.bind_eq_some_iff, Option.pure_def, Option.some.injEq]
    constructor
    · rintro ⟨b, hb, bs', hbs, rfl⟩
      exact ⟨b, bs', hb, ih.mp hbs, rfl⟩
    · rintro ⟨b, bs', hb, hbs, rfl⟩
      exact ⟨b, hb, bs', ih.mpr hbs, rfl⟩

theorem mapM_isSome (h : ∀ a ∈ as, ∃ b, f a = some b) : ∃ bs, as.mapM f = some bs := by
  induction as with
  | nil => exact ⟨[], rfl⟩
  | cons a as ih =>
    obtain ⟨hb, hbs⟩ := List.forall_mem_cons.mp h
    obtain ⟨b, hb⟩ := hb
    obtain ⟨bs, hbs⟩ := ih hbs
    exact ⟨b :: bs, mapM_eq_some_iff.mpr (.cons hb (mapM_eq_some_iff.mp hbs))⟩

theorem mem_mapM (h : as.mapM f = some bs) {a : α} (ha : a ∈ as) : ∃ b ∈ bs, f a = some b :=
  forall₂_mem_left (mapM_eq_some_iff.mp h) ha

end Loop

end Smara.Lib.Each
