import Mathlib.Data.List.Perm.Basic
import Mathlib.Data.List.Sort
import Smara.Lib.Table

/-! # Pages: `SELECT … WHERE p ORDER BY key LIMIT n`

* `mem_of_mem_page`, `keyed_page`: the rows of a page are rows of the table that meet the condition, each once.
* `mem_page_or_full`: a row that meets it is on the page, or the page is full of rows that do not come after it. -/

namespace Smara.Lib.Page

open Lib.Table

variable {ρ κ : Type*} {p : ρ → Prop} [DecidablePred p] {le : ρ → ρ → Bool} {n : ℕ} {t : List ρ} {r : ρ}

/-- `SELECT … WHERE p ORDER BY key LIMIT n` -/
def page (p : ρ → Prop) [DecidablePred p] (le : ρ → ρ → Bool) (n : ℕ) (t : List ρ) : List ρ :=
  ((t.filter fun r => p r).mergeSort le).take n

theorem mem_of_mem_page (h : r ∈ page p le n t) : r ∈ t ∧ p r := by
  have hsort := (List.mergeSort_perm _ _).mem_iff.mp (List.mem_of_mem_take h)
  simpa using List.mem_filter.mp hsort

theorem keyed_page {key : ρ → κ} (h : Keyed key t) : Keyed key (page p le n t) := by
  have hsort : Keyed key ((t.filter fun r => p r).mergeSort le) := by
    rw [Keyed, ((List.mergeSort_perm _ _).map key).nodup_iff]
    exact h.sublist (List.filter_sublist.map key)
  exact hsort.sublist ((List.take_sublist n _).map key)

/-- **A row that is due** is on the page, or the page is full of rows that do not come after it. -/
theorem mem_page_or_full (htrans : ∀ a b c, le a b = true → le b c = true → le a c = true)
    (htotal : ∀ a b, (le a b || le b a) = true) (hr : r ∈ t) (hp : p r) :
    r ∈ page p le n t ∨ (page p le n t).length = n ∧ ∀ x ∈ page p le n t, le x r = true := by
  have hmem : r ∈ (t.filter fun r => p r).mergeSort le :=
    (List.mergeSort_perm _ _).mem_iff.mpr (List.mem_filter.mpr ⟨hr, by simpa using hp⟩)
  have hsorted := List.pairwise_mergeSort htrans htotal (t.filter fun r => p r)
  unfold page
  generalize (t.filter fun r => p r).mergeSort le = l at hmem hsorted ⊢
  rw [← List.take_append_drop n l, List.mem_append] at hmem
  rcases hmem with hmem | hmem
  · exact Or.inl hmem
  · right
    have hlong : n < l.length := by
      have hpos := List.length_pos_of_mem hmem
      rw [List.length_drop] at hpos
      omega
    refine ⟨List.length_take_of_le (Nat.le_of_lt hlong), fun x hx => ?_⟩
    rw [← List.take_append_drop n l, List.pairwise_append] at hsorted
    exact hsorted.2.2 x hx r hmem

end Smara.Lib.Page
