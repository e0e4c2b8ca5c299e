import Smara.Flow.Order
import Smara.Flow.Readiness
import Smara.Lib.Sweep

/-! # One pass over the nodes

`update_node_readiness` goes through the nodes once, in the order in which they were added.

* `Lively`: what holds of the statuses of a workflow that is executed, between two passes.
* `judged_updateNodeReadiness`: what one pass does.
* `pass_of_judged`: what is blocked is a sweep from what has failed. -/

namespace Smara.Flow.Passes

open Lib.Table Lib.Sweep Flow.Schema Flow.Readiness Flow.Order

variable {ρ : Type} {w w' v : Workflow ρ} {n m : DAGNode ρ} {id d : String} {ids : List String}

/-! ### Graphs and statuses -/

def Dep (w : Workflow ρ) (d id : String) : Prop := ∃ n, w.node id = some n ∧ d ∈ n.dependsOn

def status (w : Workflow ρ) (id : String) : Option NodeStatus := (w.node id).map DAGNode.status

def Broken (w : Workflow ρ) (id : String) : Prop :=
  status w id = some .failed ∨ status w id = some .blocked

structure Same (w w' : Workflow ρ) : Prop where
  graph : Order.graph w' = Order.graph w
  paused : w'.isPaused = w.isPaused

theorem Same.refl : Same w w := ⟨rfl, rfl⟩

theorem Same.trans (h : Same w w') (h' : Same w' v) : Same w v :=
  ⟨h'.graph.trans h.graph, h'.paused.trans h.paused⟩

theorem Same.ids_eq (h : Same w w') : w'.ids = w.ids := by
  have hids : ∀ w : Workflow ρ, w.ids = (Order.graph w).map Prod.fst := fun w => by
    unfold Workflow.ids Order.graph
    rw [List.map_map]
    rfl
  rw [hids, hids, h.graph]

theorem map_node : (w.node id).map (fun n => (n.id, n.dependsOn)) = lookup Prod.fst id (graph w) := by
  have h : lookup Prod.fst id (w.nodes.map fun n => (n.id, n.dependsOn)) =
      (lookup DAGNode.id id w.nodes).map fun n => (n.id, n.dependsOn) :=
    lookup_map (n := fun x => x) (fun _ _ h => h) fun _ => rfl
  exact h.symm

theorem Same.node (h : Same w w') :
    (w'.node id).map (fun n => (n.id, n.dependsOn)) = (w.node id).map fun n => (n.id, n.dependsOn) := by
  rw [map_node, map_node, h.graph]

theorem Same.symm (h : Same w w') : Same w' w := ⟨h.graph.symm, h.paused.symm⟩

theorem Same.dep (h : Same w w') (hd : Dep w d id) : Dep w' d id := by
  obtain ⟨n, hn, hmem⟩ := hd
  have hnode : (w'.node id).map (fun n => (n.id, n.dependsOn)) =
      (w.node id).map fun n => (n.id, n.dependsOn) := h.node
  rw [hn] at hnode
  obtain ⟨n', hn', heq⟩ := Option.map_eq_some_iff.mp hnode
  refine ⟨n', hn', ?_⟩
  rw [(Prod.mk.inj heq).2]
  exact hmem

theorem Same.dep_eq (h : Same w w') : Dep w' = Dep w := by
  funext d id
  exact propext ⟨fun hd => h.symm.dep hd, fun hd => h.dep hd⟩

theorem Same.keyed (h : Same w w') (hkeyed : Keyed DAGNode.id w.nodes) : Keyed DAGNode.id w'.nodes := by
  have hids := h.ids_eq
  unfold Workflow.ids at hids
  unfold Keyed
  rw [hids]
  exact hkeyed

theorem same_upd {f : DAGNode ρ → DAGNode ρ} (hid : ∀ n, (f n).id = n.id)
    (hdeps : ∀ n, (f n).dependsOn = n.dependsOn) : Same w (w.upd id f) := by
  refine ⟨map_updateWhere fun n _ => ?_, rfl⟩
  rw [hid, hdeps]

theorem mem_ids_of_node (hn : w.node id = some n) : id ∈ w.ids := by
  rw [← key_of_lookup hn]
  exact List.mem_map_of_mem (mem_of_node hn)

theorem node_of_mem_ids (h : id ∈ w.ids) : ∃ n, w.node id = some n := by
  cases hn : w.node id with
  | some n => exact ⟨n, rfl⟩
  | none =>
    obtain ⟨n, hmem, hid⟩ := List.mem_map.mp h
    exact absurd hid (lookup_eq_none.mp hn n hmem)

/-! ### The verdict on one node -/

open Classical in
/-- What a pass makes of a node. -/
noncomputable def verdict (w : Workflow ρ) (n : DAGNode ρ) : NodeStatus :=
  if n.status ≠ .pending then n.status
  else if ∃ d ∈ n.dependsOn, Broken w d then .blocked
  else if ∀ d ∈ n.dependsOn, Done w d then .ready
  else .pending

theorem dependencies_of_known (h : ∀ d ∈ n.dependsOn, d ∈ w.ids) : ∃ deps, dependencies n w = .ok deps ∧
    ∀ m, m ∈ deps ↔ ∃ d ∈ n.dependsOn, w.node d = some m := by
  unfold dependencies
  generalize n.dependsOn = deps at h ⊢
  induction deps with
  | nil => exact ⟨[], rfl, fun m => by simp⟩
  | cons d ds ih =>
    obtain ⟨hd, hds⟩ := List.forall_mem_cons.mp h
    obtain ⟨m, hm⟩ := node_of_mem_ids hd
    obtain ⟨deps, hdeps, hmem⟩ := ih hds
    refine ⟨m :: deps, ?_, fun m' => ?_⟩
    · rw [List.mapM_cons, getItem_eq_ok.mpr hm, hdeps]
      rfl
    · rw [List.mem_cons, hmem, List.exists_mem_cons_iff, hm, Option.some.injEq, eq_comm]

/-- The node after a pass, but for its error. -/
structure Judged₁ (v : Workflow ρ) (n n' : DAGNode ρ) : Prop where
  retries : n'.retries = n.retries
  maxRetries : n'.maxRetries = n.maxRetries
  status : n'.status = verdict v n

theorem judge_eq (hknown : ∀ d, Dep w d id → d ∈ w.ids) : ∃ w', judge id w = .ok w' ∧ Same w w' ∧
    (∀ d, d ≠ id → w'.node d = w.node d) ∧
      ∀ n, w.node id = some n → ∃ n', w'.node id = some n' ∧ Judged₁ w n n' := by
  unfold judge
  cases hn : w.node id with
  | none => exact ⟨w, rfl, .refl, fun _ _ => rfl, nofun⟩
  | some n =>
    have hself : ∀ n', some n = some n' → n = n' := fun n' h => Option.some.inj h
    simp only
    split_ifs with hpending
    · refine ⟨w, rfl, .refl, fun _ _ => rfl, fun n' h => ?_⟩
      obtain rfl := hself n' h
      refine ⟨n, hn, rfl, rfl, ?_⟩
      unfold verdict
      rw [if_pos hpending]
    obtain ⟨deps, hdeps, hmem⟩ := dependencies_of_known fun d hd => hknown d ⟨n, hn, hd⟩
    have hbroken : (∃ m ∈ deps, m.status = .failed ∨ m.status = .blocked) ↔
        ∃ d ∈ n.dependsOn, Broken w d := by
      constructor
      · rintro ⟨m, hm, hstatus⟩
        obtain ⟨d, hd, hnode⟩ := (hmem m).mp hm
        refine ⟨d, hd, ?_⟩
        unfold Broken status
        rw [hnode]
        exact hstatus.imp (congrArg some) (congrArg some)
      · rintro ⟨d, hd, hstatus⟩
        unfold Broken status at hstatus
        cases hnode : w.node d with
        | none =>
          rw [hnode] at hstatus
          rcases hstatus with h | h <;> cases h
        | some m =>
          rw [hnode] at hstatus
          exact ⟨m, (hmem m).mpr ⟨d, hd, hnode⟩, hstatus.imp Option.some.inj Option.some.inj⟩
    have hdone : (∀ m ∈ deps, m.status = .completed) ↔ ∀ d ∈ n.dependsOn, Done w d := by
      constructor
      · intro hall d hd
        obtain ⟨m, hnode⟩ := node_of_mem_ids (hknown d ⟨n, hn, hd⟩)
        unfold Done
        rw [hnode, Option.map_some, hall m ((hmem m).mpr ⟨d, hd, hnode⟩)]
      · intro hall m hm
        obtain ⟨d, hd, hnode⟩ := (hmem m).mp hm
        have hdone := hall d hd
        unfold Done at hdone
        rw [hnode] at hdone
        exact Option.some.inj hdone
    rw [hdeps]
    simp only
    split_ifs with hfailed hcompleted
    · refine ⟨_, rfl, same_upd (fun _ => rfl) fun _ => rfl, fun d hd => node_upd_of_ne (fun _ => rfl) hd,
        fun n' h => ?_⟩
      obtain rfl := hself n' h
      refine ⟨_, node_upd_self (fun _ => rfl) hn, rfl, rfl, ?_⟩
      unfold verdict
      rw [if_neg hpending, if_pos (hbroken.mp hfailed)]
    · refine ⟨_, rfl, same_upd (fun _ => rfl) fun _ => rfl, fun d hd => node_upd_of_ne (fun _ => rfl) hd,
        fun n' h => ?_⟩
      obtain rfl := hself n' h
      refine ⟨_, node_upd_self (fun _ => rfl) hn, rfl, rfl, ?_⟩
      unfold verdict
      rw [if_neg hpending, if_neg fun h => hfailed (hbroken.mpr h), if_pos (hdone.mp hcompleted)]
    · refine ⟨w, rfl, .refl, fun _ _ => rfl, fun n' h => ?_⟩
      obtain rfl := hself n' h
      refine ⟨n, hn, rfl, rfl, ?_⟩
      unfold verdict
      rw [if_neg hpending, if_neg fun h => hfailed (hbroken.mpr h),
        if_neg fun h => hcompleted (hdone.mpr h)]
      exact not_not.mp hpending

/-- **The loop of a pass**: each node is judged by what those before it have become. -/
theorem judgeAll_eq (hnodup : ids.Nodup) (hknown : ∀ d id, Dep w d id → d ∈ w.ids) :
    ∃ w', judgeAll ids w = (w', .ok ()) ∧ Same w w' ∧ (∀ d, d ∉ ids → w'.node d = w.node d) ∧
      ∀ l id r, ids = l ++ id :: r → ∀ n, w.node id = some n →
        ∃ v n', (∀ d ∈ l, v.node d = w'.node d) ∧ (∀ d, d ∉ l → v.node d = w.node d) ∧
          w'.node id = some n' ∧ Judged₁ v n n' := by
  induction ids generalizing w with
  | nil => exact ⟨w, rfl, .refl, fun _ _ => rfl, fun l id r h => absurd h (by simp)⟩
  | cons id ids ih =>
    obtain ⟨hid, hids⟩ := List.nodup_cons.mp hnodup
    obtain ⟨w₁, hw₁, hsame₁, hother₁, hself₁⟩ := judge_eq fun d hd => hknown d id hd
    have hknown₁ : ∀ d id, Dep w₁ d id → d ∈ w₁.ids := fun d id hd => by
      rw [hsame₁.ids_eq]
      exact hknown d id (hsame₁.symm.dep hd)
    obtain ⟨w', hw', hsame', hother', hall'⟩ := ih hids hknown₁
    refine ⟨w', ?_, hsame₁.trans hsame', fun d hd => ?_, fun l x r hsplit n hn => ?_⟩
    · unfold judgeAll
      rw [hw₁]
      exact hw'
    · obtain ⟨hne, hd⟩ := not_or.mp (mt List.mem_cons.mpr hd)
      rw [hother' d hd, hother₁ d hne]
    · cases l with
      | nil =>
        rw [List.nil_append] at hsplit
        obtain ⟨rfl, rfl⟩ := List.cons.inj hsplit
        obtain ⟨n', hn', hjudged⟩ := hself₁ n hn
        exact ⟨w, n', fun d hd => absurd hd List.not_mem_nil, fun _ _ => rfl, by rw [hother' id hid, hn'],
          hjudged⟩
      | cons y l =>
        obtain ⟨rfl, rfl⟩ := List.cons.inj hsplit
        have hne : x ≠ id := fun h => hid (by rw [← h]; simp)
        obtain ⟨v, n', hbefore, hafter, hn', hjudged⟩ := hall' l x r rfl n (by rw [hother₁ x hne, hn])
        refine ⟨v, n', fun d hd => ?_, fun d hd => ?_, hn', hjudged⟩
        · rcases List.mem_cons.mp hd with rfl | hd
          · have hout : d ∉ l := fun h => hid (List.mem_append_left _ h)
            rw [hafter d hout, hother' d hid]
          · exact hbefore d hd
        · obtain ⟨hne, hd⟩ := not_or.mp (mt List.mem_cons.mpr hd)
          rw [hafter d hd, hother₁ d hne]

/-! ### What one pass does -/

/-- What a pass makes of a node: its dependencies are broken before the pass, or by the pass if they come
before the node. -/
inductive Fate (w w' : Workflow ρ) (n : DAGNode ρ) : NodeStatus → Prop
  | kept (h : n.status ≠ .pending) : Fate w w' n n.status
  | blocked (h : n.status = .pending)
    (hd : ∃ d ∈ n.dependsOn, Broken w d ∨ Precedes w.ids d n.id ∧ Broken w' d) : Fate w w' n .blocked
  | ready (h : n.status = .pending) (hd : ∀ d ∈ n.dependsOn, Done w d) : Fate w w' n .ready
  | waits (h : n.status = .pending)
    (hd : ∀ d ∈ n.dependsOn, ¬ (Broken w d ∨ Precedes w.ids d n.id ∧ Broken w' d))
    (hopen : ∃ d ∈ n.dependsOn, ¬ Done w d) : Fate w w' n .pending

/-- One workflow after a pass over the other. -/
structure Judged (w w' : Workflow ρ) : Prop where
  same : Same w w'
  node : ∀ id n, w.node id = some n → ∃ n', w'.node id = some n' ∧ n'.retries = n.retries ∧
    n'.maxRetries = n.maxRetries ∧ Fate w w' n n'.status

theorem not_broken_of_done (hd : Done w d) : ¬ Broken w d := by
  rintro (h | h)
  · exact absurd (hd.symm.trans h) (by decide)
  · exact absurd (hd.symm.trans h) (by decide)

theorem broken_congr (h : w.node d = w'.node d) : Broken w d ↔ Broken w' d := by
  unfold Broken status
  rw [h]

theorem done_congr (h : w.node d = w'.node d) : Done w d ↔ Done w' d := by
  unfold Done
  rw [h]

/-- **What a pass does**, in a workflow that knows its dependencies. -/
theorem judged_updateNodeReadiness (hkeyed : Keyed DAGNode.id w.nodes)
    (hknown : ∀ d id, Dep w d id → d ∈ w.ids) :
    ∃ w', updateNodeReadiness w = (w', .ok ()) ∧ Judged w w' := by
  obtain ⟨w', hw', hsame, -, hall⟩ := judgeAll_eq hkeyed hknown
  have hsplit : ∀ id n, w.node id = some n → ∃ l r, w.ids = l ++ id :: r := fun id n hn =>
    List.append_of_mem (mem_ids_of_node hn)
  -- what is broken stays so, and what is done is so before the pass
  have hbroken : ∀ d, Broken w d → Broken w' d := by
    intro d hd
    cases hn : w.node d with
    | none =>
      unfold Broken status at hd
      rw [hn] at hd
      rcases hd with h | h <;> cases h
    | some n =>
      obtain ⟨l, r, hids⟩ := hsplit d n hn
      obtain ⟨v, n', -, -, hn', hjudged⟩ := hall l d r hids n hn
      have hstatus : n'.status = n.status := by
        rw [hjudged.status]
        unfold Broken status at hd
        unfold verdict
        rw [hn] at hd
        refine if_pos fun h => ?_
        rw [Option.map_some, h] at hd
        exact absurd hd (by decide)
      unfold Broken status at hd ⊢
      rw [hn, Option.map_some] at hd
      rw [hn', Option.map_some, hstatus]
      exact hd
  have hdone : ∀ d, Done w' d ↔ Done w d := by
    intro d
    have hnode : (w'.node d).map (fun n => (n.id, n.dependsOn)) =
        (w.node d).map fun n => (n.id, n.dependsOn) := hsame.node
    cases hn : w.node d with
    | none =>
      rw [hn, Option.map_none] at hnode
      rw [done_congr ((Option.map_eq_none_iff.mp hnode).trans hn.symm)]
    | some n =>
      obtain ⟨l, r, hids⟩ := hsplit d n hn
      obtain ⟨v, n', -, -, hn', hjudged⟩ := hall l d r hids n hn
      unfold Done
      rw [hn, hn', Option.map_some, Option.map_some, hjudged.status]
      unfold verdict
      split_ifs with hpending h h
      · rfl
      · rw [not_not.mp hpending]
        decide
      · rw [not_not.mp hpending]
        decide
      · rw [not_not.mp hpending]
  refine ⟨w', hw', hsame, fun id n hn => ?_⟩
  obtain ⟨l, r, hids⟩ := hsplit id n hn
  obtain ⟨v, n', hbefore, hafter, hn', hjudged⟩ := hall l id r hids n hn
  refine ⟨n', hn', hjudged.retries, hjudged.maxRetries, ?_⟩
  have hid : n.id = id := key_of_lookup hn
  have hprecedes : ∀ d, Precedes w.ids d n.id ↔ d ∈ l := fun d => by
    have hnodup : w.ids.Nodup := hkeyed
    rw [hid, hids]
    rw [hids] at hnodup
    exact precedes_iff hnodup
  have hbroken_v : ∀ d, Broken v d ↔ Broken w d ∨ Precedes w.ids d n.id ∧ Broken w' d := by
    intro d
    rw [hprecedes]
    by_cases hd : d ∈ l
    · rw [broken_congr (hbefore d hd)]
      exact ⟨fun h => Or.inr ⟨hd, h⟩, fun h => h.elim (hbroken d) And.right⟩
    · rw [broken_congr (hafter d hd)]
      exact ⟨Or.inl, fun h => h.elim (fun h => h) fun h => absurd h.1 hd⟩
  have hdone_v : ∀ d, Done v d ↔ Done w d := by
    intro d
    by_cases hd : d ∈ l
    · rw [done_congr (hbefore d hd), hdone]
    · rw [done_congr (hafter d hd)]
  rw [hjudged.status]
  unfold verdict
  split_ifs with hpending hblocked hready
  · exact .kept hpending
  · refine .blocked (not_not.mp hpending) ?_
    obtain ⟨d, hd, hb⟩ := hblocked
    exact ⟨d, hd, (hbroken_v d).mp hb⟩
  · exact .ready (not_not.mp hpending) fun d hd => (hdone_v d).mp (hready d hd)
  · refine .waits (not_not.mp hpending) (fun d hd hb => hblocked ⟨d, hd, (hbroken_v d).mpr hb⟩) ?_
    push Not at hready
    obtain ⟨d, hd, hopen⟩ := hready
    exact ⟨d, hd, fun h => hopen ((hdone_v d).mpr h)⟩

/-! ### Statuses -/

/-- **What holds of the statuses** between two passes: what is or was executed depends on what is
`COMPLETED`, and what is `BLOCKED` on what is broken. -/
structure Lively (w : Workflow ρ) : Prop where
  keyed : Keyed DAGNode.id w.nodes
  known : ∀ d id, Dep w d id → d ∈ w.ids
  idle : ∀ id, status w id ≠ some .running ∧ status w id ≠ some .skipped
  done : ∀ d id, Dep w d id → status w id = some .ready ∨ status w id = some .completed ∨
    status w id = some .failed → Done w d
  blocked : ∀ id, status w id = some .blocked → ∃ d, Dep w d id ∧ Broken w d

theorem status_of_node (hn : w.node id = some n) : status w id = some n.status := by
  unfold status
  rw [hn, Option.map_some]

section Judged
variable (h : Lively w) (hj : Judged w w')
include hj

theorem Judged.fate {s : NodeStatus} (hs : status w' id = some s) :
    ∃ n, w.node id = some n ∧ Fate w w' n s := by
  unfold status at hs
  obtain ⟨n', hn', rfl⟩ := Option.map_eq_some_iff.mp hs
  have hmem := mem_ids_of_node hn'
  rw [hj.same.ids_eq] at hmem
  obtain ⟨n, hn⟩ := node_of_mem_ids hmem
  obtain ⟨n'', hn'', -, -, hfate⟩ := hj.node id n hn
  rw [hn'] at hn''
  obtain rfl := Option.some.inj hn''
  exact ⟨n, hn, hfate⟩

theorem Judged.kept {s : NodeStatus} (hs : status w id = some s) (hne : s ≠ .pending) :
    status w' id = some s := by
  unfold status at hs
  obtain ⟨n, hn, rfl⟩ := Option.map_eq_some_iff.mp hs
  obtain ⟨n', hn', -, -, hfate⟩ := hj.node id n hn
  rw [status_of_node hn']
  generalize n'.status = s at hfate
  cases hfate with
  | kept => rfl
  | blocked h => exact absurd h hne
  | ready h => exact absurd h hne
  | waits h => exact absurd h hne

theorem Judged.done_iff : Done w' d ↔ Done w d := by
  constructor
  · intro hd
    obtain ⟨n, hn, hfate⟩ := hj.fate hd
    generalize hs : NodeStatus.completed = s at hfate
    cases hfate with
    | kept =>
      unfold Done
      rw [hn, Option.map_some, hs]
    | blocked => cases hs
    | ready => cases hs
    | waits => cases hs
  · exact fun hd => hj.kept hd (by decide)

theorem Judged.failed_iff : status w' d = some .failed ↔ status w d = some .failed := by
  constructor
  · intro hd
    obtain ⟨n, hn, hfate⟩ := hj.fate hd
    generalize hs : NodeStatus.failed = s at hfate
    cases hfate with
    | kept => rw [status_of_node hn]
    | blocked => cases hs
    | ready => cases hs
    | waits => cases hs
  · exact fun hd => hj.kept hd (by decide)

theorem Judged.broken (hd : Broken w d) : Broken w' d :=
  hd.imp (fun h => hj.kept h (by decide)) fun h => hj.kept h (by decide)

include h

theorem lively_judged : Lively w' := by
  refine ⟨hj.same.keyed h.keyed, fun d id hd => ?_, fun id => ?_, fun d id hd hs => ?_, fun id hs => ?_⟩
  · rw [hj.same.ids_eq]
    exact h.known d id (hj.same.symm.dep hd)
  · have hidle := h.idle id
    constructor
    · intro hs
      obtain ⟨n, hn, hfate⟩ := hj.fate hs
      generalize hr : NodeStatus.running = s at hfate
      cases hfate with
      | kept => exact hidle.1 (hr ▸ status_of_node hn)
      | blocked => cases hr
      | ready => cases hr
      | waits => cases hr
    · intro hs
      obtain ⟨n, hn, hfate⟩ := hj.fate hs
      generalize hr : NodeStatus.skipped = s at hfate
      cases hfate with
      | kept => exact hidle.2 (hr ▸ status_of_node hn)
      | blocked => cases hr
      | ready => cases hr
      | waits => cases hr
  · have hdep := hj.same.symm.dep hd
    rw [hj.done_iff]
    rcases hs with hs | hs | hs
    · obtain ⟨n, hn, hfate⟩ := hj.fate hs
      generalize hr : NodeStatus.ready = s at hfate
      cases hfate with
      | kept => exact h.done d id hdep (Or.inl (hr ▸ status_of_node hn))
      | blocked => cases hr
      | ready _ hall =>
        obtain ⟨m, hm, hmem⟩ := hdep
        rw [hn] at hm
        obtain rfl := Option.some.inj hm
        exact hall d hmem
      | waits => cases hr
    · exact h.done d id hdep (Or.inr (Or.inl (hj.done_iff.mp hs)))
    · exact h.done d id hdep (Or.inr (Or.inr (hj.failed_iff.mp hs)))
  · obtain ⟨n, hn, hfate⟩ := hj.fate hs
    generalize hr : NodeStatus.blocked = s at hfate
    cases hfate with
    | kept =>
      obtain ⟨d, hd, hb⟩ := h.blocked id (hr ▸ status_of_node hn)
      exact ⟨d, hj.same.dep hd, hj.broken hb⟩
    | blocked _ hd =>
      obtain ⟨d, hd, hb⟩ := hd
      exact ⟨d, hj.same.dep ⟨n, hn, hd⟩, hb.elim hj.broken And.right⟩
    | ready => cases hr
    | waits => cases hr

/-- **What is blocked is a sweep from what is broken.** -/
theorem pass_of_judged : Pass w.ids (Dep w) (Broken w) (Broken w') := by
  refine ⟨fun d => hj.broken, fun a b hdep hb => ?_, fun b hb => ?_⟩
  · have hbroken : Broken w' a := hb.elim hj.broken And.right
    have hdone : ¬ Done w a := fun hd => not_broken_of_done (hj.done_iff.mpr hd) hbroken
    obtain ⟨n, hn, hmem⟩ := hdep
    have hid : n.id = b := key_of_lookup hn
    obtain ⟨n', hn', -, -, hfate⟩ := hj.node b n hn
    have hstatus := status_of_node hn
    unfold Broken
    rw [status_of_node hn']
    generalize n'.status = s at hfate
    cases hfate with
    | kept hpending =>
      have hidle := h.idle b
      rw [hstatus] at hidle
      have hran := fun hs => hdone (h.done a b ⟨n, hn, hmem⟩ hs)
      rw [hstatus] at hran
      cases hs : n.status with
      | pending => exact absurd hs hpending
      | ready => exact (hran (Or.inl (congrArg some hs))).elim
      | running => exact absurd (congrArg some hs) hidle.1
      | completed => exact (hran (Or.inr (Or.inl (congrArg some hs)))).elim
      | failed => exact Or.inl rfl
      | blocked => exact Or.inr rfl
      | skipped => exact absurd (congrArg some hs) hidle.2
    | blocked => exact Or.inr rfl
    | ready _ hall => exact absurd (hall a hmem) hdone
    | waits _ hnone => exact absurd (hid ▸ hb) (hnone a hmem)
  · rcases hb with hb | hb
    · exact Or.inl (Or.inl (hj.failed_iff.mp hb))
    · obtain ⟨n, hn, hfate⟩ := hj.fate hb
      have hid : n.id = b := key_of_lookup hn
      generalize hr : NodeStatus.blocked = s at hfate
      cases hfate with
      | kept => exact Or.inl (Or.inr (hr ▸ status_of_node hn))
      | blocked _ hd =>
        obtain ⟨d, hd, hb⟩ := hd
        exact Or.inr ⟨d, ⟨n, hn, hd⟩, hid ▸ hb⟩
      | ready => cases hr
      | waits => cases hr

omit hj in
theorem Judged.whole (hj : Judged w w') (hwhole : ∀ id, ¬ Broken w id) (id : String) : ¬ Broken w' id := by
  intro hb
  rcases (pass_of_judged h hj).swept_of_mark h.keyed hb with hb | ⟨a, ha, -⟩
  · exact hwhole id hb
  · exact hwhole a ha

end Judged

end Smara.Flow.Passes
