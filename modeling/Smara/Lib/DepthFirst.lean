import Smara.Lib.Acyclic

/-! # Depth-first search for cycles

`visit` goes through what lies before a node, and gives nothing where it comes back to a node that it is
visiting. It ends well from every node of a closed list exactly when no node comes before itself
(`visitAll_isSome_iff`). -/

namespace Smara.Lib.DepthFirst

open Relation (TransGen)
open Lib.Acyclic (not_transGen_of_acc)

section Defs
variable {κ : Type*} [DecidableEq κ] (before : κ → List κ)

/-- The nodes visited, and those of `node`; `fuel` bounds the depth. -/
def visit : ℕ → List κ → List κ → κ → Option (List κ)
  | 0, _, _, _ => none
  | fuel + 1, visiting, visited, node =>
    if node ∈ visiting then none
    else if node ∈ visited then some visited
    else ((before node).foldlM (visit fuel (node :: visiting)) visited).map (node :: ·)

def visitAll (nodes : List κ) : Option (List κ) := nodes.foldlM (visit before (nodes.length + 1) []) []

end Defs

variable {κ : Type*} [DecidableEq κ] {before : κ → List κ}

theorem visit_acc {fuel : ℕ} {visiting visited visited' : List κ} {node : κ}
    (h : visit before fuel visiting visited node = some visited')
    (hvisited : ∀ v ∈ visited, Acc (fun a b => a ∈ before b) v) :
    (∀ v ∈ visited', Acc (fun a b => a ∈ before b) v) ∧ node ∈ visited' ∧ visited ⊆ visited' := by
  induction fuel generalizing visiting visited visited' node with
  | zero => cases h
  | succ fuel ih =>
    rw [visit] at h
    split_ifs at h with hvisiting hseen
    · obtain rfl := Option.some.inj h
      exact ⟨hvisited, hseen, List.Subset.refl _⟩
    · obtain ⟨seen, hfold, rfl⟩ := Option.map_eq_some_iff.mp h
      -- the search from the nodes of a list
      have hlist : ∀ (l : List κ) (visited : List κ), (∀ v ∈ visited, Acc (fun a b => a ∈ before b) v) →
          l.foldlM (visit before fuel (node :: visiting)) visited = some seen →
          (∀ v ∈ seen, Acc (fun a b => a ∈ before b) v) ∧ l ⊆ seen ∧ visited ⊆ seen := by
        intro l
        induction l with
        | nil =>
          intro visited hvisited hfold
          obtain rfl := Option.some.inj hfold
          exact ⟨hvisited, List.nil_subset _, List.Subset.refl _⟩
        | cons dep l ihl =>
          intro visited hvisited hfold
          obtain ⟨between, hdep, hfold⟩ := Option.bind_eq_some_iff.mp hfold
          obtain ⟨hbetween, hmem, hsub⟩ := ih hdep hvisited
          obtain ⟨hseen, hl, hrest⟩ := ihl between hbetween hfold
          exact ⟨hseen, List.cons_subset.mpr ⟨hrest hmem, hl⟩, List.Subset.trans hsub hrest⟩
      obtain ⟨hacc, hbefore, hsub⟩ := hlist (before node) visited hvisited hfold
      refine ⟨fun v hv => ?_, List.mem_cons_self, List.subset_cons_of_subset node hsub⟩
      rcases List.mem_cons.mp hv with rfl | hv
      · exact ⟨v, fun a ha => hacc a (hbefore ha)⟩
      · exact hacc v hv

theorem visit_isSome {nodes : List κ} (hclosed : ∀ n ∈ nodes, before n ⊆ nodes)
    (hacyclic : ∀ n ∈ nodes, ¬ TransGen (fun a b => a ∈ before b) n n) {fuel : ℕ} {visiting : List κ}
    (hnodup : visiting.Nodup) (hsub : visiting ⊆ nodes) (hfuel : nodes.length < fuel + visiting.length) {node : κ}
    (hnode : node ∈ nodes) (habove : ∀ v ∈ visiting, TransGen (fun a b => a ∈ before b) node v)
    (visited : List κ) : ∃ visited', visit before fuel visiting visited node = some visited' := by
  induction fuel generalizing visiting visited node with
  | zero =>
    have := (hnodup.subperm hsub).length_le
    omega
  | succ fuel ih =>
    have hvisiting : node ∉ visiting := fun h => hacyclic node hnode (habove node h)
    rw [visit, if_neg hvisiting]
    split_ifs with hseen
    · exact ⟨visited, rfl⟩
    · have hlist : ∀ (l : List κ) (visited : List κ), l ⊆ before node →
          ∃ seen, l.foldlM (visit before fuel (node :: visiting)) visited = some seen := by
        intro l
        induction l with
        | nil => exact fun visited _ => ⟨visited, rfl⟩
        | cons dep l ihl =>
          intro visited hl
          obtain ⟨hdep, hl⟩ := List.cons_subset.mp hl
          have habove' : ∀ v ∈ node :: visiting, TransGen (fun a b => a ∈ before b) dep v := by
            intro v hv
            rcases List.mem_cons.mp hv with rfl | hv
            · exact .single hdep
            · exact .head hdep (habove v hv)
          obtain ⟨between, hbetween⟩ := ih (List.nodup_cons.mpr ⟨hvisiting, hnodup⟩)
            (List.cons_subset.mpr ⟨hnode, hsub⟩) (by simp only [List.length_cons]; omega) (hclosed node hnode hdep)
            habove' visited
          obtain ⟨seen, hseen⟩ := ihl between hl
          exact ⟨seen, by rw [List.foldlM_cons, hbetween]; exact hseen⟩
      obtain ⟨seen, hseen⟩ := hlist (before node) visited (List.Subset.refl _)
      exact ⟨node :: seen, by rw [hseen]; rfl⟩

/-- **The search** ends well exactly when no node comes before itself. -/
theorem visitAll_isSome_iff {nodes : List κ} (hclosed : ∀ n ∈ nodes, before n ⊆ nodes) :
    (∃ visited, visitAll before nodes = some visited) ↔
      ∀ n ∈ nodes, ¬ TransGen (fun a b => a ∈ before b) n n := by
  constructor
  · rintro ⟨visited, h⟩
    have hlist : ∀ (l : List κ) (seen : List κ), (∀ v ∈ seen, Acc (fun a b => a ∈ before b) v) →
        l.foldlM (visit before (nodes.length + 1) []) seen = some visited →
        ∀ v, v ∈ l ∨ v ∈ seen → Acc (fun a b => a ∈ before b) v := by
      intro l
      induction l with
      | nil =>
        intro seen hseen _ v hv
        exact hseen v (hv.resolve_left List.not_mem_nil)
      | cons n l ih =>
        intro seen hseen h v hv
        obtain ⟨between, hn, h⟩ := Option.bind_eq_some_iff.mp h
        obtain ⟨hbetween, hmem, hsub⟩ := visit_acc hn hseen
        refine ih between hbetween h v ?_
        rcases hv with hv | hv
        · rcases List.mem_cons.mp hv with rfl | hv
          · exact Or.inr hmem
          · exact Or.inl hv
        · exact Or.inr (hsub hv)
    exact fun n hn => not_transGen_of_acc (hlist nodes [] (by simp) h n (Or.inl hn))
  · intro hacyclic
    have hlist : ∀ (l : List κ) (seen : List κ), l ⊆ nodes →
        ∃ visited, l.foldlM (visit before (nodes.length + 1) []) seen = some visited := by
      intro l
      induction l with
      | nil => exact fun seen _ => ⟨seen, rfl⟩
      | cons n l ih =>
        intro seen hl
        obtain ⟨hn, hl⟩ := List.cons_subset.mp hl
        have hfuel : nodes.length < nodes.length + 1 + ([] : List κ).length := by simp
        obtain ⟨between, hbetween⟩ :=
          visit_isSome hclosed hacyclic List.nodup_nil (List.nil_subset _) hfuel hn (by simp) seen
        obtain ⟨visited, h⟩ := ih between hl
        exact ⟨visited, by rw [List.foldlM_cons, hbetween]; exact h⟩
    exact hlist nodes [] (List.Subset.refl _)

end Smara.Lib.DepthFirst
