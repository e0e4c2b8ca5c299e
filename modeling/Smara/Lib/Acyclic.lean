import Mathlib.Data.Fintype.EquivFin
import Mathlib.Data.Fintype.List

/-! # Acyclic relations

* `exists_first`: an acyclic relation on the members of a list leaves a first one.
* `acyclic_of_rank`, `not_transGen_of_acc`: two ways to see that there is no cycle. -/

namespace Smara.Lib.Acyclic

open Relation (TransGen)

variable {α : Type*} {r : α → α → Prop} {a b : α} {p : α → Prop} {l : List α}

def Acyclic (r : α → α → Prop) : Prop := ∀ a, ¬ TransGen r a a

theorem acyclic_of_rank (rank : α → ℕ) (h : ∀ a b, r a b → rank a < rank b) : Acyclic r := by
  have hlt : ∀ a b, TransGen r a b → rank a < rank b := by
    intro a b hab
    induction hab with
    | single hd => exact h _ _ hd
    | tail _ hd ih => exact ih.trans (h _ _ hd)
  exact fun a ha => (hlt a a ha).false

theorem not_transGen_of_acc (h : Acc r a) : ¬ TransGen r a a := by
  have hacc : Acc (TransGen r) a := h.transGen
  clear h
  induction hacc with
  | intro a _ ih => exact fun haa => ih a haa haa

theorem exists_first (hacyclic : Acyclic r) (hclosed : ∀ a b, r a b → a ∈ l) (hp : p b)
    (hb : b ∈ l) : ∃ a ∈ l, p a ∧ ∀ c, r c a → ¬ p c := by
  classical
  let below : { a // a ∈ l } → { a // a ∈ l } → Prop := fun a b => TransGen r a.1 b.1
  have : IsTrans { a // a ∈ l } below := ⟨fun _ _ _ => TransGen.trans⟩
  have : Std.Irrefl below := ⟨fun a => hacyclic a.1⟩
  have hwf : WellFounded below := Finite.wellFounded_of_trans_of_irrefl below
  obtain ⟨⟨a, ha⟩, hpa, hfirst⟩ := hwf.has_min { k : { a // a ∈ l } | p k.1 } ⟨⟨b, hb⟩, hp⟩
  exact ⟨a, ha, hpa, fun c hc hpc => hfirst ⟨c, hclosed c a hc⟩ hpc (.single hc)⟩

end Smara.Lib.Acyclic
