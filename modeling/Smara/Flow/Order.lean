import Smara.Flow.Schema

/-! # What a valid workflow is

`validate` takes the nodes that have no open dependency, one after the other. If it takes all of them, its
order is topological.

* `Opens`: what the degrees and the queue say between two rounds.
* `ranked_of_validate`: the dependencies of a valid workflow exist, and have lower ranks. -/

namespace Smara.Flow.Order

open Lib.Table Flow.Schema

variable {ρ : Type} {w : Workflow ρ} {degrees : Degrees} {queue order neighbors : List String}

def missing (order : List String) (n : DAGNode ρ) : ℕ := n.dependsOn.countP fun d => d ∉ order

def Sorted (w : Workflow ρ) (order : List String) : Prop :=
  ∀ l x r, order = l ++ x :: r → ∀ n ∈ w.nodes, n.id = x → ∀ d ∈ n.dependsOn, d ∈ l

/-- **What the degrees say**, when the neighbours that are given are still to be lowered. -/
structure Opens (w : Workflow ρ) (neighbors : List String) (degrees : Degrees) (queue order : List String) :
    Prop where
  degree : ∀ n ∈ w.nodes, (lookup Prod.fst n.id degrees).map Prod.snd =
    some ((missing order n + neighbors.count n.id : ℕ) : ℤ)
  queued : ∀ n ∈ w.nodes, n.id ∈ order ++ queue ↔ missing order n + neighbors.count n.id = 0
  nodup : (order ++ queue).Nodup
  known : ∀ x ∈ order ++ queue, x ∈ w.ids
  sorted : Sorted w order

theorem lookup_lower (neighbor x : String) (degrees : Degrees) :
    (lookup Prod.fst x (lower neighbor degrees)).map Prod.snd =
      ((lookup Prod.fst x degrees).map Prod.snd).map fun d => if x = neighbor then d - 1 else d := by
  unfold lower
  rw [lookup_updateWhere (f := fun d : String × ℤ => (d.1, d.2 - 1)) fun _ _ => rfl, Option.map_map,
    Option.map_map]
  cases hl : lookup Prod.fst x degrees with
  | none => rfl
  | some d =>
    obtain rfl : d.1 = x := key_of_lookup hl
    simp only [Option.map_some, Function.comp_apply]
    split_ifs <;> rfl

theorem opens_relax (h : Opens w neighbors degrees queue order) (hknown : ∀ x ∈ neighbors, x ∈ w.ids) :
    Opens w [] (relax neighbors degrees queue).1 (relax neighbors degrees queue).2 order := by
  induction neighbors generalizing degrees queue with
  | nil => exact h
  | cons m neighbors ih =>
    obtain ⟨hm, hrest⟩ := List.forall_mem_cons.mp hknown
    have hdegree : ∀ n ∈ w.nodes, (lookup Prod.fst n.id (lower m degrees)).map Prod.snd =
        some ((missing order n + neighbors.count n.id : ℕ) : ℤ) := by
      intro n hn
      rw [lookup_lower, h.degree n hn, Option.map_some, List.count_cons]
      congr 1
      by_cases hid : n.id = m
      · rw [if_pos hid, hid, if_pos (beq_self_eq_true m)]
        push_cast
        omega
      · rw [if_neg hid, if_neg (by simpa using Ne.symm hid)]
        push_cast
        omega
    -- the degree of a neighbour was positive, so it is not queued
    have hopen : ∀ n ∈ w.nodes, n.id = m → n.id ∉ order ++ queue := by
      intro n hn hid hmem
      have hzero := (h.queued n hn).mp hmem
      rw [hid, List.count_cons_self] at hzero
      omega
    obtain ⟨m', hm', hid⟩ := List.mem_map.mp hm
    unfold relax
    split_ifs with hlast
    · refine ih ⟨hdegree, fun n hn => ?_, ?_, ?_, h.sorted⟩ hrest
      · by_cases hn' : n.id = m
        · have hdeg := hdegree n hn
          rw [hn', hlast] at hdeg
          have hzero : missing order n + neighbors.count m = 0 := by
            have hcast := Option.some.inj hdeg
            omega
          rw [hn']
          exact ⟨fun _ => hzero, fun _ => by simp⟩
        · have hold := h.queued n hn
          rw [List.count_cons, if_neg (by simpa using Ne.symm hn')] at hold
          rw [← List.append_assoc, List.mem_append, List.mem_singleton]
          exact ⟨fun hmem => hold.mp (hmem.resolve_right hn'), fun hzero => Or.inl (hold.mpr hzero)⟩
      · rw [← List.append_assoc, List.nodup_append]
        refine ⟨h.nodup, List.nodup_singleton m, fun x hx y hy heq => ?_⟩
        obtain rfl := List.mem_singleton.mp hy
        exact hopen m' hm' hid (hid ▸ heq ▸ hx)
      · intro x hx
        rw [← List.append_assoc] at hx
        rcases List.mem_append.mp hx with hx | hx
        · exact h.known x hx
        · rw [List.mem_singleton.mp hx]
          exact hm
    · refine ih ⟨hdegree, fun n hn => ?_, h.nodup, h.known, h.sorted⟩ hrest
      by_cases hn' : n.id = m
      · have hdeg := hdegree n hn
        rw [hn'] at hdeg
        refine ⟨fun hmem => absurd hmem (hopen n hn hn'), fun hzero => ?_⟩
        rw [hn'] at hzero
        rw [hzero] at hdeg
        exact absurd hdeg hlast
      · have hold := h.queued n hn
        rwa [List.count_cons, if_neg (by simpa using Ne.symm hn')] at hold

theorem count_adj (hkeyed : Keyed DAGNode.id w.nodes) {n : DAGNode ρ} (hn : n ∈ w.nodes) (curr : String) :
    (adj w curr).count n.id = n.dependsOn.count curr := by
  unfold adj
  generalize w.nodes = nodes at hkeyed hn
  have hself : ∀ m : DAGNode ρ, ((m.dependsOn.filter fun d => d = curr).map fun _ => m.id).count n.id =
      if m.id = n.id then m.dependsOn.count curr else 0 := by
    intro m
    rw [List.map_const', List.count_replicate, List.count_eq_length_filter]
    split_ifs with h h' h'
    · congr 2
    · exact absurd (by simpa using h) h'
    · exact absurd (by simpa using h') h
    · rfl
  induction nodes with
  | nil => cases hn
  | cons m nodes ih =>
    obtain ⟨hfresh, hrest⟩ := List.nodup_cons.mp hkeyed
    rw [List.flatMap_cons, List.count_append, hself]
    rcases List.mem_cons.mp hn with rfl | hn
    · have hzero : (nodes.flatMap fun m => (m.dependsOn.filter fun d => d = curr).map fun _ => m.id).count
          n.id = 0 := by
        refine List.count_eq_zero.mpr fun hmem => ?_
        obtain ⟨m, hm, hid⟩ := List.mem_flatMap.mp hmem
        obtain ⟨-, -, hid⟩ := List.mem_map.mp hid
        exact hfresh (hid ▸ List.mem_map_of_mem hm)
      rw [if_pos rfl, hzero, Nat.add_zero]
    · have hne : m.id ≠ n.id := fun h => hfresh (h ▸ List.mem_map_of_mem hn)
      rw [if_neg hne, Nat.zero_add]
      exact ih hrest hn

theorem mem_ids_of_adj {x curr : String} (h : x ∈ adj w curr) : x ∈ w.ids := by
  obtain ⟨n, hn, hx⟩ := List.mem_flatMap.mp h
  obtain ⟨-, -, rfl⟩ := List.mem_map.mp hx
  exact List.mem_map_of_mem hn

theorem missing_append {n : DAGNode ρ} {curr : String} (hcurr : curr ∉ order) :
    missing order n = missing (order ++ [curr]) n + n.dependsOn.count curr := by
  unfold missing
  induction n.dependsOn with
  | nil => rfl
  | cons d deps ih =>
    rw [List.countP_cons, List.countP_cons, List.count_cons, ih]
    by_cases hd : d = curr
    · subst hd
      simp [hcurr]
      omega
    · simp [hd]
      omega

theorem deps_of_missing {n : DAGNode ρ} (h : missing order n = 0) : ∀ d ∈ n.dependsOn, d ∈ order := by
  intro d hd
  have hnone := List.countP_eq_zero.mp h d hd
  simpa using hnone

theorem opens_take (hkeyed : Keyed DAGNode.id w.nodes) {curr : String}
    (h : Opens w [] degrees (curr :: queue) order) :
    Opens w (adj w curr) degrees queue (order ++ [curr]) := by
  have hcurr : curr ∉ order := by
    intro hmem
    have hnodup := List.nodup_append.mp h.nodup
    exact hnodup.2.2 curr hmem curr List.mem_cons_self rfl
  have hsum : ∀ n ∈ w.nodes, missing order n + ([] : List String).count n.id =
      missing (order ++ [curr]) n + (adj w curr).count n.id := by
    intro n hn
    rw [count_adj hkeyed hn, missing_append hcurr, List.count_nil, Nat.add_zero]
  have hsplit : order ++ [curr] ++ queue = order ++ curr :: queue := by simp
  refine ⟨fun n hn => ?_, fun n hn => ?_, ?_, ?_, ?_⟩
  · rw [← hsum n hn]
    exact h.degree n hn
  · rw [← hsum n hn, hsplit]
    exact h.queued n hn
  · rw [hsplit]
    exact h.nodup
  · rw [hsplit]
    exact h.known
  · intro l x r heq n hn hid d hd
    rcases List.append_eq_append_iff.mp heq with ⟨t, ht, hr⟩ | ⟨t, rfl, ht⟩
    · cases t with
      | nil =>
        rw [List.append_nil] at ht
        rw [List.nil_append] at hr
        obtain ⟨rfl, -⟩ := List.cons.inj hr
        have hzero := (h.queued n hn).mp (hid ▸ List.mem_append_right _ List.mem_cons_self)
        rw [ht]
        exact deps_of_missing (by omega) d hd
      | cons y t =>
        exact absurd hr (by simp)
    · cases t with
      | nil =>
        rw [List.nil_append] at ht
        obtain ⟨rfl, -⟩ := List.cons.inj ht
        have hzero := (h.queued n hn).mp (hid ▸ List.mem_append_right _ List.mem_cons_self)
        have hmissing : missing (l ++ []) n = 0 := by omega
        have hmem := deps_of_missing hmissing d hd
        rwa [List.append_nil] at hmem
      | cons y t =>
        obtain ⟨rfl, -⟩ := List.cons.inj ht
        exact h.sorted l x t rfl n hn hid d hd

/-- **The loop of Kahn's algorithm** gives an order in which every node comes after its dependencies. -/
theorem opens_kahn (hkeyed : Keyed DAGNode.id w.nodes) (h : Opens w [] degrees queue order) :
    Opens w [] (kahn (adj w) degrees queue order).1 [] (kahn (adj w) degrees queue order).2 := by
  induction degrees, queue, order using kahn.induct (adj w) with
  | case1 degrees order =>
    unfold kahn
    exact h
  | case2 degrees order curr queue ih =>
    unfold kahn
    exact ih (opens_relax (opens_take hkeyed h) fun x hx => mem_ids_of_adj hx)

theorem opens_start (hkeyed : Keyed DAGNode.id w.nodes) :
    Opens w [] (inDegree w) (((inDegree w).filter fun d => d.2 = 0).map Prod.fst) [] := by
  have hmissing : ∀ n : DAGNode ρ, missing [] n = n.dependsOn.length := by
    intro n
    unfold missing
    rw [List.countP_eq_length]
    simp
  have hlookup : ∀ n ∈ w.nodes, lookup Prod.fst n.id (inDegree w) = some (n.id, (n.dependsOn.length : ℤ)) := by
    intro n hn
    unfold inDegree
    rw [lookup_map (m := fun n : DAGNode ρ => (n.id, (n.dependsOn.length : ℤ)))
      (n := fun x => x) Function.injective_id fun _ => rfl]
    rw [lookup_key hkeyed hn, Option.map_some]
  refine ⟨fun n hn => ?_, fun n hn => ?_, ?_, ?_, ?_⟩
  · rw [hlookup n hn, hmissing, List.count_nil, Nat.add_zero, Option.map_some]
  · rw [hmissing, List.count_nil, Nat.add_zero, List.nil_append, List.mem_map]
    constructor
    · rintro ⟨d, hd, hid⟩
      obtain ⟨hmem, hzero⟩ := List.mem_filter.mp hd
      obtain ⟨m, hm, rfl⟩ := List.mem_map.mp hmem
      obtain rfl := hkeyed.eq_of_key hm hn hid
      simpa using hzero
    · intro hzero
      exact ⟨_, List.mem_filter.mpr ⟨List.mem_map_of_mem hn, by simpa using hzero⟩, rfl⟩
  · rw [List.nil_append]
    refine List.Nodup.sublist (List.filter_sublist.map Prod.fst) ?_
    unfold inDegree
    rw [List.map_map]
    exact hkeyed
  · intro x hx
    rw [List.nil_append] at hx
    obtain ⟨d, hd, rfl⟩ := List.mem_map.mp hx
    obtain ⟨m, hm, rfl⟩ := List.mem_map.mp (List.mem_filter.mp hd).1
    exact List.mem_map_of_mem hm
  · intro l x r heq
    exact absurd heq (by simp)

/-- **The dependencies of a valid workflow** exist, and come before the node in some order. -/
theorem ranked_of_validate (hkeyed : Keyed DAGNode.id w.nodes) {order : List String}
    (h : validate w = .ok order) :
    ∃ rank : String → ℕ, ∀ n ∈ w.nodes, ∀ d ∈ n.dependsOn, d ∈ w.ids ∧ rank d < rank n.id := by
  unfold validate at h
  cases hunknown : unknownDependency w with
  | some e =>
    rw [hunknown] at h
    cases h
  | none =>
    rw [hunknown] at h
    simp only at h
    split_ifs at h with hlength
    push Not at hlength
    have hopens := opens_kahn hkeyed (opens_start hkeyed)
    generalize kahn (adj w) (inDegree w) (((inDegree w).filter fun d => d.2 = 0).map Prod.fst) [] = r
      at hlength hopens
    obtain ⟨rest, order⟩ := r
    have hnodup : order.Nodup := by simpa using hopens.nodup
    have hsub : order ⊆ w.ids := fun x hx => hopens.known x (by simpa using hx)
    have hperm : order.Perm w.ids := by
      refine List.Subperm.perm_of_length_le (hnodup.subperm hsub) ?_
      rw [hlength]
      exact (List.length_map _).le
    refine ⟨fun x => order.idxOf x, fun n hn d hd => ?_⟩
    have hmem : n.id ∈ order := hperm.mem_iff.mpr (List.mem_map_of_mem hn)
    obtain ⟨l, r, hsplit⟩ := List.append_of_mem hmem
    have hd' : d ∈ l := hopens.sorted l n.id r hsplit n hn rfl d hd
    refine ⟨hsub (hsplit ▸ List.mem_append_left _ hd'), ?_⟩
    have hnot : n.id ∉ l := by
      rw [hsplit] at hnodup
      exact fun hmem => (List.nodup_append.mp hnodup).2.2 n.id hmem n.id List.mem_cons_self rfl
    simp only
    rw [hsplit, List.idxOf_append_of_mem hd', List.idxOf_append_of_notMem hnot, List.idxOf_cons_self,
      Nat.add_zero]
    exact List.idxOf_lt_length_of_mem hd'

def graph (w : Workflow ρ) : List (String × List String) := w.nodes.map fun n => (n.id, n.dependsOn)

theorem validate_congr {w' : Workflow ρ} (h : graph w' = graph w) : validate w' = validate w := by
  have hids : ∀ w : Workflow ρ, w.ids = (graph w).map Prod.fst := fun w => by
    unfold Workflow.ids graph
    rw [List.map_map]
    rfl
  have hunknown : ∀ w : Workflow ρ, unknownDependency w =
      ((graph w).flatMap fun e => e.2.map fun dep => (e.1, dep)).find?
        fun e => e.2 ∉ (graph w).map Prod.fst := fun w => by
    unfold unknownDependency
    rw [← hids, graph, List.flatMap_map]
  have hadj : ∀ w : Workflow ρ, adj w = fun dep =>
      (graph w).flatMap fun e => (e.2.filter fun d => d = dep).map fun _ => e.1 := fun w => by
    funext dep
    unfold adj graph
    rw [List.flatMap_map]
  have hdegree : ∀ w : Workflow ρ, inDegree w = (graph w).map fun e => (e.1, (e.2.length : ℤ)) := fun w => by
    unfold inDegree graph
    rw [List.map_map]
    rfl
  have hlength : ∀ w : Workflow ρ, w.nodes.length = (graph w).length := fun w => by
    unfold graph
    rw [List.length_map]
  unfold validate
  rw [hunknown, hunknown, hadj, hadj, hdegree, hdegree, hlength, hlength, h]

end Smara.Flow.Order
