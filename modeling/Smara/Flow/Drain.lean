import Mathlib.Algebra.Order.BigOperators.Group.List
import Mathlib.Algebra.Order.Group.Nat
import Smara.Flow.Passes

/-! # When a run drains a workflow

A run stops when nothing was executed. What has failed blocks what depends on it in the passes before
that: one after the step in which it failed, and one in the step that executes nothing.

* `step_cases`: all that a step does.
* `stepAll_ends`: a run ends, as every step uses up an attempt.
* `drains_iff`: the runs of a graph drain it, whatever the executor does and however often nodes are
  retried, if and only if two sweeps go from each node to all that depend on it. -/

namespace Smara.Flow.Drain

open Relation
open Lib.Table Lib.Sweep Flow.Schema Flow.Readiness Flow.Order
open Flow.Passes

variable {ρ : Type} {w w' v : Workflow ρ} {s : Session ρ} {n m : DAGNode ρ} {a b d id : String}
  {ids : List String} {executor : Executor ρ}

/-! ### Executions -/

/-- The executor raises nothing but `Exception`s. -/
def Uninterrupted (executor : Executor ρ) : Prop := ∀ log, executor log ≠ .interrupted

structure Executed (executor : Executor ρ) (ids : List String) (w w' : Workflow ρ) : Prop where
  same : Same w w'
  kept : ∀ id, id ∉ ids → w'.node id = w.node id
  ran : ∀ id ∈ ids, ∀ n, w.node id = some n → ∃ past e, e.node.id = id ∧
    w'.node id = some (settle (executor (past ++ [e])) { n with status := .running })

theorem executeAll_eq (huninterrupted : Uninterrupted executor) (hnodup : ids.Nodup)
    (hthere : ∀ id ∈ ids, id ∈ s.workflow.ids) :
    ∃ s', executeAll executor ids s = (s', .ok ()) ∧ Executed executor ids s.workflow s'.workflow := by
  induction ids generalizing s with
  | nil => exact ⟨s, rfl, .refl, fun _ _ => rfl, nofun⟩
  | cons id ids ih =>
    obtain ⟨hid, hids⟩ := List.nodup_cons.mp hnodup
    obtain ⟨hfirst, hrest⟩ := List.forall_mem_cons.mp hthere
    obtain ⟨n, hn⟩ := node_of_mem_ids hfirst
    let start (n : DAGNode ρ) : DAGNode ρ := { n with status := .running }
    have hrunning : (s.workflow.upd id start).node id = some (start n) :=
      node_upd_self (fun _ => rfl) hn
    generalize hlog : s.log ++ [{ node := start n, workflow := s.workflow.upd id start }] = log
    generalize hs₁ : ({ workflow := (s.workflow.upd id start).upd id (settle (executor log)), log := log } :
      Session ρ) = s₁
    have hsame : Same s.workflow s₁.workflow := by
      rw [← hs₁]
      have hstart : Same s.workflow (s.workflow.upd id start) := same_upd (fun _ => rfl) fun _ => rfl
      exact hstart.trans (same_upd (settle_id _) (settle_dependsOn _))
    have hself : s₁.workflow.node id = some (settle (executor log) (start n)) := by
      rw [← hs₁]
      exact node_upd_self (settle_id _) hrunning
    have hother : ∀ d, d ≠ id → s₁.workflow.node d = s.workflow.node d := fun d hd => by
      rw [← hs₁]
      exact (node_upd_of_ne (settle_id _) hd).trans (node_upd_of_ne (f := start) (fun _ => rfl) hd)
    obtain ⟨s', hs', hexecuted⟩ := ih (s := s₁) hids fun d hd => by
      rw [hsame.ids_eq]
      exact hrest d hd
    refine ⟨s', ?_, hsame.trans hexecuted.same, fun d hd => ?_, fun d hd m hm => ?_⟩
    · unfold executeAll
      simp only
      rw [hrunning]
      simp only
      rw [hlog, hs₁]
      cases hout : executor log with
      | interrupted => exact absurd hout (huninterrupted log)
      | returned result => exact hs'
      | raised message => exact hs'
    · obtain ⟨hne, hd⟩ := not_or.mp (mt List.mem_cons.mpr hd)
      rw [hexecuted.kept d hd, hother d hne]
    · rcases List.mem_cons.mp hd with rfl | hd
      · rw [hm] at hn
        obtain rfl := Option.some.inj hn
        rw [hexecuted.kept d hid, hself, ← hlog]
        have hid : m.id = d := key_of_lookup hm
        exact ⟨s.log, _, hid, rfl⟩
      · have hne : d ≠ id := fun h => hid (h ▸ hd)
        exact hexecuted.ran d hd m (by rw [hother d hne, hm])

section Executed
variable (h : Lively w) (hready : ∀ id, id ∈ ids ↔ status w id = some .ready)
  (he : Executed executor ids w w')

theorem status_settle (outcome : Outcome ρ) (hout : outcome ≠ .interrupted) :
    (settle outcome n).status = .completed ∨ (settle outcome n).status = .failed ∨
      (settle outcome n).status = .ready := by
  cases outcome with
  | returned result => exact Or.inl rfl
  | raised message =>
    unfold settle
    split_ifs
    · exact Or.inr (Or.inr rfl)
    · exact Or.inr (Or.inl rfl)
  | interrupted => exact absurd rfl hout

include hready he

theorem Executed.status_kept {s : NodeStatus} (hs : status w id = some s) (hne : s ≠ .ready) :
    status w' id = some s := by
  have hid : id ∉ ids := fun hid => hne (Option.some.inj (hs.symm.trans ((hready id).mp hid)))
  unfold status
  rw [he.kept id hid]
  exact hs

theorem Executed.status_cases (huninterrupted : Uninterrupted executor) {s : NodeStatus}
    (hs : status w' id = some s) : status w id = some s ∧ s ≠ .ready ∨
      status w id = some .ready ∧ (s = .completed ∨ s = .failed ∨ s = .ready) := by
  by_cases hid : id ∈ ids
  · refine Or.inr ⟨(hready id).mp hid, ?_⟩
    have hstatus := (hready id).mp hid
    unfold status at hstatus
    obtain ⟨n, hn, -⟩ := Option.map_eq_some_iff.mp hstatus
    obtain ⟨past, e, -, hnode⟩ := he.ran id hid n hn
    rw [status_of_node hnode] at hs
    obtain rfl := Option.some.inj hs
    exact status_settle _ (huninterrupted _)
  · unfold status at hs
    rw [he.kept id hid] at hs
    refine Or.inl ⟨hs, ?_⟩
    rintro rfl
    exact hid ((hready id).mpr hs)

include h

theorem lively_executed (huninterrupted : Uninterrupted executor) : Lively w' := by
  have hdone : ∀ d, Done w d → Done w' d := fun d hd => he.status_kept hready hd (by decide)
  have hcases : ∀ {id s}, status w' id = some s → status w id = some s ∧ s ≠ .ready ∨
      status w id = some .ready ∧ (s = .completed ∨ s = .failed ∨ s = .ready) :=
    fun hs => he.status_cases hready huninterrupted hs
  refine ⟨he.same.keyed h.keyed, fun d id hd => ?_, fun id => ?_, fun d id hd hs => ?_, fun id hs => ?_⟩
  · rw [he.same.ids_eq]
    exact h.known d id (he.same.symm.dep hd)
  · constructor
    · intro hs
      rcases hcases hs with ⟨hs, -⟩ | ⟨-, hs⟩
      · exact (h.idle id).1 hs
      · exact absurd hs (by decide)
    · intro hs
      rcases hcases hs with ⟨hs, -⟩ | ⟨-, hs⟩
      · exact (h.idle id).2 hs
      · exact absurd hs (by decide)
  · refine hdone d (h.done d id (he.same.symm.dep hd) ?_)
    rcases hs with hs | hs | hs
    · rcases hcases hs with ⟨hs, hne⟩ | ⟨hs, -⟩
      · exact absurd rfl hne
      · exact Or.inl hs
    · rcases hcases hs with ⟨hs, -⟩ | ⟨hs, -⟩
      · exact Or.inr (Or.inl hs)
      · exact Or.inl hs
    · rcases hcases hs with ⟨hs, -⟩ | ⟨hs, -⟩
      · exact Or.inr (Or.inr hs)
      · exact Or.inl hs
  · rcases hcases hs with ⟨hs, -⟩ | ⟨-, hs⟩
    · obtain ⟨d, hd, hb⟩ := h.blocked id hs
      refine ⟨d, he.same.dep hd, hb.imp (fun h => ?_) fun h => ?_⟩
      · exact he.status_kept hready h (by decide)
      · exact he.status_kept hready h (by decide)
    · exact absurd hs (by decide)

end Executed

/-! ### One step -/

/-- **All that a step does**: a pass, and if a node is `READY` after it, the execution of these nodes and
another pass. -/
theorem step_cases (h : Lively s.workflow) (hpaused : s.workflow.isPaused = false)
    (huninterrupted : Uninterrupted executor) : ∃ w₁, Judged s.workflow w₁ ∧
      ((∀ id, status w₁ id ≠ some .ready) ∧ step executor s = ({ s with workflow := w₁ }, .ok []) ∨
        ∃ (ids : List String) (s₂ : Session ρ) (w₃ : Workflow ρ), ids ≠ [] ∧
          (∀ id, id ∈ ids ↔ status w₁ id = some .ready) ∧ Executed executor ids w₁ s₂.workflow ∧
            Judged s₂.workflow w₃ ∧ step executor s = ({ s₂ with workflow := w₃ }, .ok ids)) := by
  obtain ⟨w₁, hw₁, hj₁⟩ := judged_updateNodeReadiness h.keyed h.known
  have hkeyed₁ := hj₁.same.keyed h.keyed
  generalize hids : (w₁.nodes.filter fun n => n.status = .ready).map DAGNode.id = ids
  have hready : ∀ id, id ∈ ids ↔ status w₁ id = some .ready := by
    intro id
    rw [← hids, List.mem_map]
    constructor
    · rintro ⟨n, hn, rfl⟩
      obtain ⟨hmem, hstatus⟩ := List.mem_filter.mp hn
      rw [status_of_node (show w₁.node n.id = some n from lookup_key hkeyed₁ hmem),
        of_decide_eq_true hstatus]
    · intro hs
      unfold status at hs
      obtain ⟨n, hn, hstatus⟩ := Option.map_eq_some_iff.mp hs
      exact ⟨n, List.mem_filter.mpr ⟨mem_of_node hn, decide_eq_true hstatus⟩, key_of_lookup hn⟩
  have hnodup : ids.Nodup := by
    rw [← hids]
    exact hkeyed₁.sublist (List.filter_sublist.map DAGNode.id)
  have hthere : ∀ id ∈ ids, id ∈ w₁.ids := by
    intro id hid
    rw [← hids] at hid
    obtain ⟨n, hn, rfl⟩ := List.mem_map.mp hid
    exact List.mem_map_of_mem (List.mem_filter.mp hn).1
  have hnodes : getReadyNodes s.workflow = (w₁, .ok ids) := by
    unfold getReadyNodes Left.andThen
    rw [hw₁, ← hids]
  refine ⟨w₁, hj₁, ?_⟩
  have hfalse : ¬ s.workflow.isPaused = true := by
    rw [hpaused]
    exact Bool.false_ne_true
  unfold step
  rw [if_neg hfalse, hnodes]
  cases ids with
  | nil => exact Or.inl ⟨fun id hid => absurd ((hready id).mpr hid) List.not_mem_nil, rfl⟩
  | cons id ids =>
    obtain ⟨s₂, hs₂, hexecuted⟩ := executeAll_eq (s := { s with workflow := w₁ }) huninterrupted hnodup hthere
    have hlively := lively_executed (lively_judged h hj₁) hready hexecuted huninterrupted
    obtain ⟨w₃, hw₃, hj₃⟩ := judged_updateNodeReadiness hlively.keyed hlively.known
    refine Or.inr ⟨id :: ids, s₂, w₃, List.cons_ne_nil _ _, hready, hexecuted, hj₃, ?_⟩
    simp only
    rw [hs₂]
    simp only
    rw [hw₃]
    rfl

/-! ### Attempts -/

def attempts (n : DAGNode ρ) : ℕ :=
  if n.status = .pending ∨ n.status = .ready then (n.maxRetries - n.retries).toNat + 1 else 0

def work (w : Workflow ρ) : ℕ := (w.ids.map fun id => ((w.node id).map attempts).getD 0).sum

theorem attempts_judged (hj : Judged w w') (id : String) :
    ((w'.node id).map attempts).getD 0 ≤ ((w.node id).map attempts).getD 0 := by
  have hsame : (w'.node id).map (fun n => (n.id, n.dependsOn)) =
      (w.node id).map fun n => (n.id, n.dependsOn) := hj.same.node
  cases hn : w.node id with
  | none =>
    rw [hn, Option.map_none] at hsame
    rw [Option.map_eq_none_iff.mp hsame]
  | some n =>
    obtain ⟨n', hn', hretries, hmax, hfate⟩ := hj.node id n hn
    rw [hn']
    simp only [Option.map_some, Option.getD_some]
    unfold attempts
    rw [hretries, hmax]
    generalize n'.status = s at hfate
    cases hfate with
    | kept => exact le_rfl
    | blocked => exact Nat.zero_le _
    | ready h => simp [h]
    | waits h => simp [h]

theorem work_judged (hj : Judged w w') : work w' ≤ work w := by
  unfold work
  rw [hj.same.ids_eq]
  exact List.sum_le_sum fun id _ => attempts_judged hj id

theorem attempts_settle (outcome : Outcome ρ) (hout : outcome ≠ .interrupted) (hn : n.status = .ready) :
    attempts (settle outcome { n with status := .running }) < attempts n := by
  have hattempts : attempts n = (n.maxRetries - n.retries).toNat + 1 := if_pos (Or.inr hn)
  rw [hattempts]
  cases outcome with
  | returned result => exact Nat.succ_pos _
  | raised message =>
    unfold settle
    split_ifs with hretry
    · simp only at hretry
      simp only [attempts, or_true, if_true]
      omega
    · exact Nat.succ_pos _
  | interrupted => exact absurd rfl hout

theorem work_executed (hready : ∀ id, id ∈ ids ↔ status w id = some .ready)
    (he : Executed executor ids w w') (huninterrupted : Uninterrupted executor) (hids : ids ≠ []) :
    work w' < work w := by
  have hlt : ∀ id ∈ ids, ((w'.node id).map attempts).getD 0 < ((w.node id).map attempts).getD 0 := by
    intro id hid
    have hstatus := (hready id).mp hid
    unfold status at hstatus
    obtain ⟨n, hn, hs⟩ := Option.map_eq_some_iff.mp hstatus
    obtain ⟨past, e, -, hnode⟩ := he.ran id hid n hn
    rw [hn, hnode]
    exact attempts_settle _ (huninterrupted _) hs
  unfold work
  rw [he.same.ids_eq]
  refine List.sum_lt_sum _ _ (fun id _ => ?_) ?_
  · by_cases hid : id ∈ ids
    · exact (hlt id hid).le
    · rw [he.kept id hid]
  · obtain ⟨id, hid⟩ := List.exists_mem_of_ne_nil ids hids
    have hstatus := (hready id).mp hid
    unfold status at hstatus
    obtain ⟨n, hn, -⟩ := Option.map_eq_some_iff.mp hstatus
    exact ⟨id, mem_ids_of_node hn, hlt id hid⟩

/-! ### Runs -/

/-- **What holds between two steps**: what has failed has blocked all that one sweep goes to. -/
structure Steady (w : Workflow ρ) : Prop where
  lively : Lively w
  paused : w.isPaused = false
  swept : ∀ a b, status w a = some .failed → Swept w.ids (Dep w) a b → Broken w b

theorem steady_judged (h : Lively w) (hpaused : w.isPaused = false) (hj : Judged w w') : Steady w' := by
  refine ⟨lively_judged h hj, hj.same.paused.trans hpaused, fun a b ha hb => ?_⟩
  rw [hj.same.ids_eq, hj.same.dep_eq] at hb
  exact (pass_of_judged h hj).marks_swept (Or.inl (hj.failed_iff.mp ha)) hb

/-- **A run ends**, with a step that executes nothing. -/
theorem stepAll_ends (huninterrupted : Uninterrupted executor) (h : Steady s.workflow) (taken : ℕ) :
    ∃ s' t w, (∀ left, work s.workflow < left → stepAll executor left taken s = (s', .ok t)) ∧
      Same s.workflow w ∧ Steady w ∧ Judged w s'.workflow ∧ ∀ id, status s'.workflow id ≠ some .ready := by
  induction hk : work s.workflow using Nat.strongRecOn generalizing s taken with
  | _ k ih =>
    have hfalse : ¬ s.workflow.isPaused = true := by
      rw [h.paused]
      exact Bool.false_ne_true
    obtain ⟨w₁, hj₁, hnone | hsome⟩ := step_cases h.lively h.paused huninterrupted
    · obtain ⟨hready, hstep⟩ := hnone
      refine ⟨{ s with workflow := w₁ }, taken, s.workflow, fun left hleft => ?_, .refl, h, hj₁, hready⟩
      cases left with
      | zero => exact absurd hleft (Nat.not_lt_zero _)
      | succ left =>
        unfold stepAll
        rw [if_neg hfalse, hstep]
    · obtain ⟨ids, s₂, w₃, hids, hready, hexecuted, hj₃, hstep⟩ := hsome
      have hlively₁ := lively_judged h.lively hj₁
      have hlively₂ := lively_executed hlively₁ hready hexecuted huninterrupted
      have hpaused₂ : s₂.workflow.isPaused = false :=
        hexecuted.same.paused.trans (hj₁.same.paused.trans h.paused)
      have hlt : work w₃ < work s.workflow :=
        (work_judged hj₃).trans_lt ((work_executed hready hexecuted huninterrupted hids).trans_le
          (work_judged hj₁))
      obtain ⟨s', t, w, hrun, hsame, hsteady, hj, hend⟩ := ih (work w₃) (hk ▸ hlt)
        (s := { s₂ with workflow := w₃ }) (steady_judged hlively₂ hpaused₂ hj₃) (taken + 1) rfl
      refine ⟨s', t, w, fun left hleft => ?_,
        ((hj₁.same.trans hexecuted.same).trans hj₃.same).trans hsame, hsteady, hj, hend⟩
      cases left with
      | zero => exact absurd hleft (Nat.not_lt_zero _)
      | succ left =>
        unfold stepAll
        rw [if_neg hfalse, hstep]
        cases ids with
        | nil => exact absurd rfl hids
        | cons id ids => exact hrun left (by omega)

/-! ### Valid workflows -/

structure Fresh (w : Workflow ρ) : Prop where
  keyed : Keyed DAGNode.id w.nodes
  valid : ∃ order, validate w = .ok order
  pending : ∀ n ∈ w.nodes, n.status = .pending
  paused : w.isPaused = false

theorem Fresh.ranked (h : Fresh w) : ∃ rank : String → ℕ, ∀ d id, Dep w d id → d ∈ w.ids ∧ rank d < rank id := by
  obtain ⟨order, hvalid⟩ := h.valid
  obtain ⟨rank, hrank⟩ := ranked_of_validate h.keyed hvalid
  refine ⟨rank, fun d id hd => ?_⟩
  obtain ⟨n, hn, hmem⟩ := hd
  rw [← key_of_lookup hn]
  exact hrank n (mem_of_node hn) d hmem

theorem Fresh.status (h : Fresh w) {s : NodeStatus} (hs : status w id = some s) : s = .pending := by
  unfold Passes.status at hs
  obtain ⟨n, hn, rfl⟩ := Option.map_eq_some_iff.mp hs
  exact h.pending n (mem_of_node hn)

theorem Fresh.lively (h : Fresh w) : Lively w := by
  obtain ⟨rank, hrank⟩ := h.ranked
  refine ⟨h.keyed, fun d id hd => (hrank d id hd).1, fun id => ⟨fun hs => ?_, fun hs => ?_⟩,
    fun d id hd hs => ?_, fun id hs => ?_⟩
  · exact absurd (h.status hs) (by decide)
  · exact absurd (h.status hs) (by decide)
  · rcases hs with hs | hs | hs <;> exact absurd (h.status hs) (by decide)
  · exact absurd (h.status hs) (by decide)

theorem Fresh.steady (h : Fresh w) : Steady w :=
  ⟨h.lively, h.paused, fun _ _ ha => absurd (h.status ha) (by decide)⟩

/-! ### What has failed, and what depends on it -/

theorem failed_of_broken {rank : String → ℕ} (h : Lively w)
    (hrank : ∀ d id, Dep w d id → d ∈ w.ids ∧ rank d < rank id) (hb : Broken w b) :
    ∃ a, Passes.status w a = some .failed ∧ ReflTransGen (Dep w) a b := by
  induction hr : rank b using Nat.strongRecOn generalizing b with
  | _ r ih =>
    rcases hb with hb | hb
    · exact ⟨b, hb, .refl⟩
    · obtain ⟨d, hd, hbroken⟩ := h.blocked b hb
      obtain ⟨a, ha, hreach⟩ := ih (rank d) (hr ▸ (hrank d b hd).2) hbroken rfl
      exact ⟨a, ha, hreach.tail hd⟩

theorem done_of_below (h : Lively w) (hab : TransGen (Dep w) a b)
    (hb : Passes.status w b = some .ready ∨ Passes.status w b = some .completed ∨
      Passes.status w b = some .failed) : Done w a := by
  induction hab with
  | single hd => exact h.done _ _ hd hb
  | tail _ hd ih => exact ih (Or.inr (Or.inl (h.done _ _ hd hb)))

/-- **Two sweeps are enough**: they go from each node to all that depend on it, in the order in which the
nodes were added. -/
def Prompt (w : Workflow ρ) : Prop := ∀ a b, TransGen (Dep w) a b → TwoSweeps w.ids (Dep w) a b

def Finished (s : NodeStatus) : Prop := s = .completed ∨ s = .failed ∨ s = .blocked

/-- **Nothing is left**: two sweeps have gone from what has failed to all that depend on it. -/
theorem finished_of_prompt {rank : String → ℕ} (hsteady : Steady w) (hj : Judged w w')
    (hrank : ∀ d id, Dep w d id → d ∈ w.ids ∧ rank d < rank id) (hprompt : Prompt w)
    (hend : ∀ id, Passes.status w' id ≠ some .ready) (hid : id ∈ w.ids) :
    ∃ s, Passes.status w' id = some s ∧ Finished s := by
  have hlively := lively_judged hsteady.lively hj
  have hpass := pass_of_judged hsteady.lively hj
  -- what depends on something broken is blocked by the last pass
  have hblocked : ∀ d id, Dep w d id → Broken w' d → Broken w' id := by
    intro d id hd hb
    have hdep : ∀ d id, Dep w' d id → d ∈ w'.ids ∧ rank d < rank id := by
      rw [hj.same.dep_eq, hj.same.ids_eq]
      exact hrank
    obtain ⟨a, ha, hreach⟩ := failed_of_broken hlively hdep hb
    rw [hj.same.dep_eq] at hreach
    have hfailed := hj.failed_iff.mp ha
    rcases hprompt a id (TransGen.tail' hreach hd) with hswept | ⟨m, hm, hswept⟩
    · exact hj.broken (hsteady.swept a id hfailed hswept)
    · exact hpass.marks_swept (hsteady.swept a m hfailed hm) hswept
  induction hr : rank id using Nat.strongRecOn generalizing id with
  | _ r ih =>
    obtain ⟨n, hn⟩ := node_of_mem_ids hid
    obtain ⟨n', hn', -, -, hfate⟩ := hj.node id n hn
    have hstatus := status_of_node hn'
    refine ⟨n'.status, hstatus, ?_⟩
    have hidle := hlively.idle id
    have hready := hend id
    rw [hstatus] at hidle hready
    cases hs : n'.status with
    | completed => exact Or.inl rfl
    | failed => exact Or.inr (Or.inl rfl)
    | blocked => exact Or.inr (Or.inr rfl)
    | ready => exact absurd (congrArg some hs) hready
    | running => exact absurd (congrArg some hs) hidle.1
    | skipped => exact absurd (congrArg some hs) hidle.2
    | pending =>
      rw [hs] at hfate hstatus
      have hwaits : ∃ d ∈ n.dependsOn, ¬ Done w d := by
        generalize hp : NodeStatus.pending = s at hfate
        cases hfate with
        | kept h => exact absurd hp.symm h
        | blocked => cases hp
        | ready => cases hp
        | waits _ _ hopen => exact hopen
      obtain ⟨d, hd, hopen⟩ := hwaits
      have hdep : Dep w d id := ⟨n, hn, hd⟩
      obtain ⟨s, hs', hfinished⟩ := ih (rank d) (hr ▸ (hrank d id hdep).2) (hrank d id hdep).1 rfl
      rcases hfinished with rfl | hbroken
      · exact absurd (hj.done_iff.mp hs') hopen
      · have hb : Broken w' d := by
          rcases hbroken with rfl | rfl
          · exact Or.inl hs'
          · exact Or.inr hs'
        rcases hblocked d id hdep hb with h | h
        · exact absurd (hstatus.symm.trans h) (by decide)
        · exact absurd (hstatus.symm.trans h) (by decide)

/-! ### Drained workflows -/

/-- **The workflow is drained** by an executor: there is a number of steps from which on the run is the
same, and every node is finished; the `BLOCKED` nodes are those that depend on what has failed. -/
def Drains (executor : Executor ρ) (w : Workflow ρ) : Prop :=
  ∃ bound s' r, (∀ maxSteps, bound ≤ maxSteps →
      runUntilComplete executor maxSteps { workflow := w } = (s', .ok r)) ∧
    r.isComplete = true ∧ (∀ n ∈ s'.workflow.nodes, Finished n.status) ∧
      ∀ n ∈ s'.workflow.nodes, n.status = .blocked ↔
        ∃ d, TransGen (Dep w) d n.id ∧ Passes.status s'.workflow d = some .failed

theorem drains_of_prompt (h : Fresh w) (hprompt : Prompt w) (huninterrupted : Uninterrupted executor) :
    Drains executor w := by
  obtain ⟨rank, hrank⟩ := h.ranked
  obtain ⟨s', t, v, hrun, hsame, hsteady, hj, hend⟩ :=
    stepAll_ends (s := { workflow := w }) huninterrupted h.steady 0
  have hrank' : ∀ d id, Dep v d id → d ∈ v.ids ∧ rank d < rank id := by
    rw [hsame.dep_eq, hsame.ids_eq]
    exact hrank
  have hprompt' : Prompt v := by
    unfold Prompt
    rw [hsame.dep_eq, hsame.ids_eq]
    exact hprompt
  have hlively := lively_judged hsteady.lively hj
  have hkeyed : Keyed DAGNode.id s'.workflow.nodes := hlively.keyed
  have hstatus : ∀ n ∈ s'.workflow.nodes, Passes.status s'.workflow n.id = some n.status :=
    fun n hn => status_of_node (show s'.workflow.node n.id = some n from lookup_key hkeyed hn)
  have hfinished : ∀ n ∈ s'.workflow.nodes, Finished n.status := by
    intro n hn
    have hid : n.id ∈ v.ids := by
      rw [← hj.same.ids_eq]
      exact List.mem_map_of_mem hn
    obtain ⟨s, hs, hfin⟩ := finished_of_prompt hsteady hj hrank' hprompt' hend hid
    rw [hstatus n hn] at hs
    exact Option.some.inj hs ▸ hfin
  have hdep : Dep s'.workflow = Dep w := hj.same.dep_eq.trans hsame.dep_eq
  refine ⟨work w + 1, s', summary t s'.workflow, fun maxSteps hle => ?_, ?_, hfinished, fun n hn => ?_⟩
  · obtain ⟨order, hvalid⟩ := h.valid
    unfold runUntilComplete
    simp only
    rw [hvalid, hrun maxSteps hle]
  · unfold summary
    simp only
    rw [List.all_eq_true]
    intro n hn
    rcases hfinished n hn with h | h | h <;> rw [h] <;> decide
  · constructor
    · intro hb
      have hrank'' : ∀ d id, Dep s'.workflow d id → d ∈ s'.workflow.ids ∧ rank d < rank id := by
        rw [hdep, hj.same.ids_eq, hsame.ids_eq]
        exact hrank
      obtain ⟨d, hd, hbroken⟩ := hlively.blocked n.id (by rw [hstatus n hn, hb])
      obtain ⟨a, ha, hreach⟩ := failed_of_broken hlively hrank'' hbroken
      rw [hdep] at hreach hd
      exact ⟨a, TransGen.tail' hreach hd, ha⟩
    · rintro ⟨d, hd, hfailed⟩
      rw [← hdep] at hd
      have hnot : ¬ Done s'.workflow d := fun hdone => absurd (hdone.symm.trans hfailed) (by decide)
      rcases hfinished n hn with h | h | h
      · exact absurd (done_of_below hlively hd (Or.inr (Or.inl (by rw [hstatus n hn, h])))) hnot
      · exact absurd (done_of_below hlively hd (Or.inr (Or.inr (by rw [hstatus n hn, h])))) hnot
      · exact h

/-! ### A failure at the end of a run -/

/-- The node is another one, and does not depend on `a`. -/
def Apart (w : Workflow ρ) (a id : String) : Prop := id ∈ w.ids ∧ id ≠ a ∧ ¬ TransGen (Dep w) a id

/-- The number of nodes that are `COMPLETED`. -/
def tally (w : Workflow ρ) : ℕ := (w.ids.map fun id => if Done w id then 1 else 0).sum

theorem tally_le {w w' : Workflow ρ} (hids : w'.ids = w.ids) (hdone : ∀ id, Done w id → Done w' id) :
    tally w ≤ tally w' := by
  unfold tally
  rw [hids]
  refine List.sum_le_sum fun id _ => ?_
  by_cases h : Done w id
  · rw [if_pos h, if_pos (hdone id h)]
  · rw [if_neg h]
    exact Nat.zero_le _

theorem tally_lt {w w' : Workflow ρ} (hids : w'.ids = w.ids) (hdone : ∀ id, Done w id → Done w' id)
    (hid : id ∈ w.ids) (hold : ¬ Done w id) (hnew : Done w' id) : tally w < tally w' := by
  unfold tally
  rw [hids]
  refine List.sum_lt_sum _ _ (fun id _ => ?_) ⟨id, hid, ?_⟩
  · by_cases h : Done w id
    · rw [if_pos h, if_pos (hdone id h)]
    · rw [if_neg h]
      exact Nat.zero_le _
  · rw [if_neg hold, if_pos hnew]
    exact Nat.one_pos

theorem tally_lt_length (hid : id ∈ w.ids) (h : ¬ Done w id) : tally w < w.ids.length := by
  have hlt : tally w < (w.ids.map fun _ => 1).sum := by
    refine List.sum_lt_sum _ _ (fun id _ => ?_) ⟨id, hid, ?_⟩
    · split_ifs
      · exact le_rfl
      · exact Nat.zero_le _
    · rw [if_neg h]
      exact Nat.one_pos
  rwa [List.map_const', List.sum_replicate, Nat.nsmul_eq_mul, Nat.mul_one] at hlt

/-- **Before `a` fails** nothing has, and either it has been retried no more often than others were
`COMPLETED`, or all that do not depend on it are. -/
structure Waiting (a : String) (w : Workflow ρ) : Prop where
  lively : Lively w
  paused : w.isPaused = false
  whole : ∀ id, ¬ Broken w id
  unfinished : ¬ Done w a
  budget : ∃ n, w.node a = some n ∧ n.maxRetries = w.ids.length ∧
    (n.retries ≤ tally w ∨ ∀ id, Apart w a id → Done w id)

/-- **After `a` has failed** all that do not depend on it are `COMPLETED`, and one sweep goes to what is
`BLOCKED`. -/
structure Failed (a : String) (w : Workflow ρ) : Prop where
  lively : Lively w
  paused : w.isPaused = false
  failed : Passes.status w a = some .failed
  others : ∀ id, Apart w a id → Done w id
  swept : ∀ id, Passes.status w id = some .blocked → Swept w.ids (Dep w) a id

theorem pending_of_below (h : Lively w) (hdone : ¬ Done w a) (hab : TransGen (Dep w) a b)
    (hb : Passes.status w b ≠ some .blocked) : Passes.status w b = some .pending := by
  have hnode : ∃ n, w.node b = some n := by
    cases hab with
    | single hd => exact ⟨hd.choose, hd.choose_spec.1⟩
    | tail _ hd => exact ⟨hd.choose, hd.choose_spec.1⟩
  obtain ⟨n, hn⟩ := hnode
  have hran := fun hs => hdone (done_of_below h hab hs)
  have hidle := h.idle b
  rw [status_of_node hn] at hb hran hidle ⊢
  cases hs : n.status with
  | pending => rfl
  | ready => exact (hran (Or.inl (congrArg some hs))).elim
  | running => exact absurd (congrArg some hs) hidle.1
  | completed => exact (hran (Or.inr (Or.inl (congrArg some hs)))).elim
  | failed => exact (hran (Or.inr (Or.inr (congrArg some hs)))).elim
  | blocked => exact absurd (congrArg some hs) hb
  | skipped => exact absurd (congrArg some hs) hidle.2

theorem Apart.congr (h : Same w w') : Apart w' a id ↔ Apart w a id := by
  unfold Apart
  rw [h.dep_eq, h.ids_eq]

theorem tally_judged (hj : Judged w w') : tally w' = tally w := by
  unfold tally
  rw [hj.same.ids_eq]
  simp only [hj.done_iff]

theorem waiting_judged (h : Waiting a w) (hj : Judged w w') : Waiting a w' := by
  refine ⟨lively_judged h.lively hj, hj.same.paused.trans h.paused, Judged.whole h.lively hj h.whole,
    fun hd => h.unfinished (hj.done_iff.mp hd), ?_⟩
  obtain ⟨n, hn, hmax, hbudget⟩ := h.budget
  obtain ⟨n', hn', hretries, hmax', -⟩ := hj.node a n hn
  refine ⟨n', hn', ?_, ?_⟩
  · rw [hmax', hmax, hj.same.ids_eq]
  · rw [hretries, tally_judged hj]
    exact hbudget.imp_right fun hall id hid => hj.done_iff.mpr (hall id ((Apart.congr hj.same).mp hid))

/-- **A pass after which something is open** has made a node `READY` that does not depend on `a`. -/
theorem ready_of_open {rank : String → ℕ} (h : Waiting a w) (hj : Judged w w')
    (hrank : ∀ d id, Dep w d id → d ∈ w.ids ∧ rank d < rank id)
    (hopen : ¬ ∀ id, Apart w a id → Done w id) :
    ∃ id, Apart w a id ∧ ¬ Done w id ∧ Passes.status w' id = some .ready := by
  push Not at hopen
  obtain ⟨id, hid, hundone⟩ := hopen
  induction hr : rank id using Nat.strongRecOn generalizing id with
  | _ r ih =>
    obtain ⟨hmem, hne, hbelow⟩ := hid
    obtain ⟨n, hn⟩ := node_of_mem_ids hmem
    by_cases hdeps : ∀ d, Dep w d id → Done w d
    · refine ⟨id, ⟨hmem, hne, hbelow⟩, hundone, ?_⟩
      obtain ⟨n', hn', -, -, hfate⟩ := hj.node id n hn
      have hwhole := h.whole id
      have hidle := h.lively.idle id
      unfold Broken at hwhole
      unfold Done at hundone
      rw [status_of_node hn] at hwhole hidle
      rw [hn, Option.map_some] at hundone
      rw [status_of_node hn']
      generalize n'.status = s at hfate
      cases hfate with
      | kept hpending =>
        cases hs : n.status with
        | pending => exact absurd hs hpending
        | ready => rfl
        | running => exact absurd (congrArg some hs) hidle.1
        | completed => exact absurd (congrArg some hs) hundone
        | failed => exact absurd (Or.inl (congrArg some hs)) hwhole
        | blocked => exact absurd (Or.inr (congrArg some hs)) hwhole
        | skipped => exact absurd (congrArg some hs) hidle.2
      | blocked _ hd =>
        obtain ⟨d, hd, hb⟩ := hd
        rcases hb with hb | ⟨-, hb⟩
        · exact absurd hb (h.whole d)
        · exact absurd hb (Judged.whole h.lively hj h.whole d)
      | ready => rfl
      | waits _ _ hwaits =>
        obtain ⟨d, hd, hnot⟩ := hwaits
        exact absurd (hdeps d ⟨n, hn, hd⟩) hnot
    · -- the dependency does not depend on `a` either
      push Not at hdeps
      obtain ⟨d, hd, hnot⟩ := hdeps
      refine ih (rank d) (hr ▸ (hrank d id hd).2) d ⟨(hrank d id hd).1, ?_, fun hd' => hbelow (hd'.tail hd)⟩
        hnot rfl
      rintro rfl
      exact hbelow (.single hd)

def failing [Inhabited ρ] (a : String) : Executor ρ := fun log =>
  match log.getLast? with
  | some e => if e.node.id = a then .raised "" else .returned default
  | none => .returned default

theorem uninterrupted_failing [Inhabited ρ] (a : String) : Uninterrupted (failing a : Executor ρ) := by
  intro log
  unfold failing
  split
  · split_ifs
    · exact nofun
    · exact nofun
  · exact nofun

theorem failing_append [Inhabited ρ] (past : List (Execution ρ)) (e : Execution ρ) :
    failing a (past ++ [e]) = if e.node.id = a then .raised "" else .returned default := by
  unfold failing
  rw [List.getLast?_append_of_ne_nil _ (List.cons_ne_nil _ _), List.getLast?_singleton]

/-- **The execution of a step before `a` fails**: it does not fail, or it does so after all that do not
depend on it are `COMPLETED`. -/
theorem waiting_executed [Inhabited ρ] (h : Waiting a w)
    (hready : ∀ id, id ∈ ids ↔ Passes.status w id = some .ready) (he : Executed (failing a) ids w w')
    (hprogress : (∀ id, Apart w a id → Done w id) ∨ ∃ id ∈ ids, Apart w a id) :
    Waiting a w' ∨ Passes.status w' a = some .failed ∧ (∀ id, Apart w' a id → Done w' id) ∧
      ∀ id, Broken w' id → id = a := by
  have huninterrupted : Uninterrupted (failing a : Executor ρ) := uninterrupted_failing a
  have hlively := lively_executed h.lively hready he huninterrupted
  have hpaused := he.same.paused.trans h.paused
  have hdone : ∀ id, Done w id → Done w' id := fun id hd => he.status_kept hready hd (by decide)
  have hthere : ∀ id ∈ ids, ∃ n, w.node id = some n ∧ n.status = .ready := fun id hid =>
    Option.map_eq_some_iff.mp ((hready id).mp hid)
  have hreturns : ∀ id ∈ ids, id ≠ a → Done w' id := by
    intro id hid hne
    obtain ⟨n, hn, -⟩ := hthere id hid
    obtain ⟨past, e, heq, hnode⟩ := he.ran id hid n hn
    rw [failing_append, if_neg (by rw [heq]; exact hne)] at hnode
    unfold Done
    rw [hnode]
    rfl
  have hbroken : ∀ id, Broken w' id → id = a := by
    intro id hb
    by_contra hne
    by_cases hid : id ∈ ids
    · exact not_broken_of_done (hreturns id hid hne) hb
    · exact h.whole id ((broken_congr (he.kept id hid)).mp hb)
  obtain ⟨n, hn, hmax, hbudget⟩ := h.budget
  have hmem : a ∈ w.ids := mem_ids_of_node hn
  have htally : tally w ≤ tally w' := tally_le he.same.ids_eq hdone
  by_cases ha : a ∈ ids
  · obtain ⟨n', hn', hstatus⟩ := hthere a ha
    obtain rfl : n = n' := Option.some.inj (hn.symm.trans hn')
    obtain ⟨past, e, heq, hnode⟩ := he.ran a ha n hn
    rw [failing_append, if_pos heq] at hnode
    unfold settle at hnode
    simp only at hnode
    split_ifs at hnode with hretry
    · -- it is retried, and another node was executed if one was open
      refine Or.inl ⟨hlively, hpaused, fun id hb => ?_, fun hd => ?_, _, hnode, ?_, ?_⟩
      · obtain rfl := hbroken id hb
        unfold Broken at hb
        rw [status_of_node hnode] at hb
        rcases hb with hb | hb <;> cases hb
      · unfold Done at hd
        rw [hnode] at hd
        cases hd
      · rw [he.same.ids_eq]
        exact hmax
      · have hall : (∀ id, Apart w a id → Done w id) → ∀ id, Apart w' a id → Done w' id :=
          fun hall id hid => hdone id (hall id ((Apart.congr he.same).mp hid))
        rcases hbudget with hle | hdone'
        · rcases hprogress with hdone' | ⟨id, hid, hapart⟩
          · exact Or.inr (hall hdone')
          · have hopen : ¬ Done w id := by
              intro hd
              exact absurd (hd.symm.trans ((hready id).mp hid)) (by decide)
            have hlt := tally_lt he.same.ids_eq hdone hapart.1 hopen (hreturns id hid hapart.2.1)
            refine Or.inl ?_
            simp only
            omega
        · exact Or.inr (hall hdone')
    · refine Or.inr ⟨by rw [status_of_node hnode], fun id hid => ?_, hbroken⟩
      rcases hbudget with hle | hall
      · have hlt := tally_lt_length hmem h.unfinished
        omega
      · exact hdone id (hall id ((Apart.congr he.same).mp hid))
  · have hnode : w'.node a = w.node a := he.kept a ha
    refine Or.inl ⟨hlively, hpaused, fun id hb => ?_, fun hd => ?_, n, ?_, ?_, ?_⟩
    · obtain rfl := hbroken id hb
      exact h.whole id ((broken_congr hnode).mp hb)
    · exact h.unfinished ((done_congr hnode).mp hd)
    · rw [hnode, hn]
    · rw [he.same.ids_eq]
      exact hmax
    · refine hbudget.imp (fun hle => ?_) fun hall id hid => hdone id (hall id ((Apart.congr he.same).mp hid))
      omega

theorem failed_judged (h : Lively w) (hpaused : w.isPaused = false)
    (ha : Passes.status w a = some .failed) (hothers : ∀ id, Apart w a id → Done w id)
    (hbroken : ∀ id, Broken w id → id = a) (hj : Judged w w') : Failed a w' := by
  refine ⟨lively_judged h hj, hj.same.paused.trans hpaused, hj.failed_iff.mpr ha, fun id hid => ?_,
    fun id hid => ?_⟩
  · exact hj.done_iff.mpr (hothers id ((Apart.congr hj.same).mp hid))
  · rw [hj.same.ids_eq, hj.same.dep_eq]
    rcases (pass_of_judged h hj).swept_of_mark h.keyed (Or.inr hid) with hb | ⟨c, hc, hswept⟩
    · obtain rfl := hbroken id hb
      exact absurd (hid.symm.trans (hj.failed_iff.mpr ha)) (by decide)
    · exact hbroken c hc ▸ hswept

theorem Failed.eq_or_done (h : Failed a w) (hid : id ∈ w.ids)
    (hs : Passes.status w id = some .ready ∨ Passes.status w id = some .completed ∨
      Passes.status w id = some .failed) : id = a ∨ Done w id := by
  by_cases hne : id = a
  · exact Or.inl hne
  by_cases hbelow : TransGen (Dep w) a id
  · have hdone := done_of_below h.lively hbelow hs
    exact absurd (hdone.symm.trans h.failed) (by decide)
  · exact Or.inr (h.others id ⟨hid, hne, hbelow⟩)

theorem Failed.no_ready (h : Failed a w) (hj : Judged w w') (id : String) :
    Passes.status w' id ≠ some .ready := by
  intro hs
  have hlively := lively_judged h.lively hj
  have hfailed : Passes.status w' a = some .failed := hj.failed_iff.mpr h.failed
  have hmem : id ∈ w.ids := by
    unfold Passes.status at hs
    obtain ⟨n, hn, -⟩ := Option.map_eq_some_iff.mp hs
    rw [← hj.same.ids_eq]
    exact mem_ids_of_node hn
  by_cases hne : id = a
  · rw [hne] at hs
    exact absurd (hs.symm.trans hfailed) (by decide)
  by_cases hbelow : TransGen (Dep w) a id
  · rw [← hj.same.dep_eq] at hbelow
    exact absurd ((done_of_below hlively hbelow (Or.inl hs)).symm.trans hfailed) (by decide)
  · have hdone : Done w' id := hj.done_iff.mpr (h.others id ⟨hmem, hne, hbelow⟩)
    exact absurd (hdone.symm.trans hs) (by decide)

theorem Failed.twoSweeps (h : Failed a w) (hj : Judged w w') (hb : Passes.status w' b = some .blocked) :
    TwoSweeps w.ids (Dep w) a b := by
  have hcases : ∀ c, Broken w c → c = a ∨ Swept w.ids (Dep w) a c := by
    rintro c (hc | hc)
    · have hmem : c ∈ w.ids := by
        unfold Passes.status at hc
        obtain ⟨n, hn, -⟩ := Option.map_eq_some_iff.mp hc
        exact mem_ids_of_node hn
      rcases h.eq_or_done hmem (Or.inr (Or.inr hc)) with heq | hdone
      · exact Or.inl heq
      · exact absurd (hdone.symm.trans hc) (by decide)
    · exact Or.inr (h.swept c hc)
  rcases (pass_of_judged h.lively hj).swept_of_mark h.lively.keyed (Or.inr hb) with hold | ⟨c, hc, hswept⟩
  · rcases hcases b hold with rfl | hswept
    · exact absurd (hb.symm.trans (hj.failed_iff.mpr h.failed)) (by decide)
    · exact Or.inl hswept
  · rcases hcases c hc with rfl | hfirst
    · exact Or.inl hswept
    · exact Or.inr ⟨c, hfirst, hswept⟩

theorem pending_stepAll [Inhabited ρ] {rank : String → ℕ}
    (hrank : ∀ d id, Dep s.workflow d id → d ∈ s.workflow.ids ∧ rank d < rank id)
    (hab : TransGen (Dep s.workflow) a b) (hfar : ¬ TwoSweeps s.workflow.ids (Dep s.workflow) a b)
    (h : Waiting a s.workflow ∨ Failed a s.workflow) (left taken : ℕ) :
    Passes.status (stepAll (failing a) left taken s).1.workflow b = some .pending := by
  have hwaiting : ∀ {w : Workflow ρ}, Same s.workflow w → Waiting a w →
      Passes.status w b = some .pending := by
    intro w hsame hw
    rw [← hsame.dep_eq] at hab
    exact pending_of_below hw.lively hw.unfinished hab fun hb => hw.whole b (Or.inr hb)
  have hunfinished : ∀ {w : Workflow ρ}, Passes.status w a = some .failed → ¬ Done w a := fun hs hd =>
    absurd (hd.symm.trans hs) (by decide)
  induction left generalizing s taken with
  | zero =>
    unfold stepAll
    rcases h with h | h
    · exact hwaiting .refl h
    · exact pending_of_below h.lively (hunfinished h.failed) hab fun hb => hfar (Or.inl (h.swept b hb))
  | succ left ih =>
    have hnext : ∀ {s' : Session ρ}, Same s.workflow s'.workflow →
        Waiting a s'.workflow ∨ Failed a s'.workflow →
          Passes.status (stepAll (failing a) left (taken + 1) s').1.workflow b = some .pending := by
      intro s' hsame h'
      refine ih ?_ ?_ ?_ h' (taken + 1) fun hsame' => hwaiting (hsame.trans hsame')
      · rw [hsame.dep_eq, hsame.ids_eq]
        exact hrank
      · rw [hsame.dep_eq]
        exact hab
      · rw [hsame.dep_eq, hsame.ids_eq]
        exact hfar
    unfold stepAll
    rcases h with h | h
    · have hfalse : ¬ s.workflow.isPaused = true := by
        rw [h.paused]
        exact Bool.false_ne_true
      rw [if_neg hfalse]
      obtain ⟨w₁, hj₁, ⟨-, hstep⟩ | ⟨ids, s₂, w₃, hids, hready, he, hj₃, hstep⟩⟩ :=
        step_cases h.lively h.paused (uninterrupted_failing a)
      · rw [hstep]
        exact hwaiting hj₁.same (waiting_judged h hj₁)
      · have h₁ := waiting_judged h hj₁
        have hprogress : (∀ id, Apart w₁ a id → Done w₁ id) ∨ ∃ id ∈ ids, Apart w₁ a id := by
          by_cases hopen : ∀ id, Apart s.workflow a id → Done s.workflow id
          · exact Or.inl fun id hid => hj₁.done_iff.mpr (hopen id ((Apart.congr hj₁.same).mp hid))
          · obtain ⟨id, hid, -, hs⟩ := ready_of_open h hj₁ hrank hopen
            exact Or.inr ⟨id, (hready id).mpr hs, (Apart.congr hj₁.same).mpr hid⟩
        rw [hstep]
        cases ids with
        | nil => exact absurd rfl hids
        | cons id ids =>
          refine hnext ((hj₁.same.trans he.same).trans hj₃.same) ?_
          have hlively₂ := lively_executed h₁.lively hready he (uninterrupted_failing a)
          have hpaused₂ := he.same.paused.trans h₁.paused
          rcases waiting_executed h₁ hready he hprogress with h₂ | ⟨hfailed, hothers, hbroken⟩
          · exact Or.inl (waiting_judged h₂ hj₃)
          · exact Or.inr (failed_judged hlively₂ hpaused₂ hfailed hothers hbroken hj₃)
    · have hfalse : ¬ s.workflow.isPaused = true := by
        rw [h.paused]
        exact Bool.false_ne_true
      rw [if_neg hfalse]
      obtain ⟨w₁, hj₁, ⟨-, hstep⟩ | ⟨ids, s₂, w₃, hids, hready, he, hj₃, hstep⟩⟩ :=
        step_cases h.lively h.paused (uninterrupted_failing a)
      · rw [hstep]
        have hfailed : Passes.status w₁ a = some .failed := hj₁.failed_iff.mpr h.failed
        rw [← hj₁.same.dep_eq] at hab
        exact pending_of_below (lively_judged h.lively hj₁) (hunfinished hfailed) hab fun hb =>
          hfar (h.twoSweeps hj₁ hb)
      · obtain ⟨id, hid⟩ := List.exists_mem_of_ne_nil ids hids
        exact absurd ((hready id).mp hid) (h.no_ready hj₁ id)

/-! ### The runs of a graph -/

theorem not_drains_of_far [Inhabited ρ] (h : Fresh w) (hab : TransGen (Dep w) a b)
    (hfar : ¬ TwoSweeps w.ids (Dep w) a b) :
    ∃ v : Workflow ρ, Fresh v ∧ graph v = graph w ∧ ¬ Drains (failing a) v := by
  let patient (n : DAGNode ρ) : DAGNode ρ := { n with retries := 0, maxRetries := w.ids.length }
  have hsame : Same w (w.upd a patient) := same_upd (fun _ => rfl) fun _ => rfl
  have hfresh : Fresh (w.upd a patient) := by
    refine ⟨hsame.keyed h.keyed, ?_, fun n hn => ?_, h.paused⟩
    · obtain ⟨order, hvalid⟩ := h.valid
      exact ⟨order, (validate_congr hsame.graph).trans hvalid⟩
    · obtain ⟨m, hm, rfl⟩ := mem_updateWhere.mp hn
      split_ifs
      · exact h.pending m hm
      · exact h.pending m hm
  refine ⟨w.upd a patient, hfresh, hsame.graph, ?_⟩
  rintro ⟨bound, s', r, hrun, -, hfinished, -⟩
  obtain ⟨rank, hrank⟩ := hfresh.ranked
  have hnode : ∃ n, w.node a = some n := by
    obtain ⟨c, hd, -⟩ := TransGen.head'_iff.mp hab
    exact node_of_mem_ids (h.lively.known a c hd)
  obtain ⟨n, hn⟩ := hnode
  have hwaiting : Waiting a (w.upd a patient) := by
    refine ⟨hfresh.lively, hfresh.paused, ?_, fun hd => ?_, patient n, node_upd_self (fun _ => rfl) hn, ?_, ?_⟩
    · rintro id (hb | hb)
      · exact absurd (hfresh.status hb) (by decide)
      · exact absurd (hfresh.status hb) (by decide)
    · exact absurd (hfresh.status hd) (by decide)
    · rw [hsame.ids_eq]
    · exact Or.inl (Int.natCast_nonneg _)
  have hpending := pending_stepAll (s := { workflow := w.upd a patient }) hrank
    (by rw [hsame.dep_eq]; exact hab) (by rw [hsame.dep_eq, hsame.ids_eq]; exact hfar) (Or.inl hwaiting) bound 0
  have hresult := hrun bound le_rfl
  obtain ⟨order, hvalid⟩ := hfresh.valid
  unfold runUntilComplete at hresult
  simp only at hresult
  rw [hvalid] at hresult
  simp only at hresult
  generalize stepAll (failing a) bound 0 { workflow := w.upd a patient } = r at hpending hresult
  obtain ⟨s₁, taken⟩ := r
  cases taken with
  | error e => cases (Prod.mk.inj hresult).2
  | ok t =>
    obtain ⟨rfl, -⟩ := Prod.mk.inj hresult
    unfold Passes.status at hpending
    obtain ⟨m, hm, hs⟩ := Option.map_eq_some_iff.mp hpending
    have hfin := hfinished m (mem_of_node hm)
    rw [hs] at hfin
    rcases hfin with h | h | h <;> cases h

/-- **A graph is drained**, whatever the executor does and however often nodes are retried, if and only if
two sweeps go from each node to all that depend on it. -/
theorem drains_iff [Inhabited ρ] {w : Workflow ρ} (h : Fresh w) :
    (∀ v : Workflow ρ, Fresh v → graph v = graph w →
      ∀ executor, Uninterrupted executor → Drains executor v) ↔ Prompt w := by
  constructor
  · intro hall a b hab
    by_contra hfar
    obtain ⟨v, hfresh, hgraph, hnot⟩ := not_drains_of_far h hab hfar
    exact hnot (hall v hfresh hgraph (failing a) (uninterrupted_failing a))
  · intro hprompt v hfresh hgraph executor huninterrupted
    refine drains_of_prompt hfresh ?_ huninterrupted
    have hsame : Same w v := ⟨hgraph, hfresh.paused.trans h.paused.symm⟩
    unfold Prompt
    rw [hsame.dep_eq, hsame.ids_eq]
    exact hprompt

def upward : Workflow Unit := { nodes := [{ id := "test", dependsOn := ["build"] }, { id := "build" }] }

theorem fresh_upward : Fresh upward :=
  ⟨by decide, ⟨["build", "test"], by decide_cbv⟩, by decide, rfl⟩

/-- A step against the order is a single sweep. -/
theorem drains_iff_upward : Prompt upward ∧ ∀ v : Workflow Unit, Fresh v → graph v = graph upward →
    ∀ executor, Uninterrupted executor → Drains executor v := by
  have hdep : ∀ d id, Dep upward d id → d = "build" ∧ id = "test" := by
    rintro d id ⟨n, hn, hd⟩
    have hid := key_of_lookup hn
    have hmem := mem_of_node hn
    simp only [upward, List.mem_cons, List.not_mem_nil, or_false] at hmem
    rcases hmem with rfl | rfl
    · exact ⟨List.mem_singleton.mp hd, hid.symm⟩
    · exact absurd hd List.not_mem_nil
  have hprompt : Prompt upward := by
    intro a b hab
    cases hab with
    | single hd => exact Or.inl ⟨b, hd, .refl⟩
    | tail hab hd =>
      obtain ⟨c, -, hc⟩ := TransGen.tail'_iff.mp hab
      exact absurd ((hdep _ _ hc).2.symm.trans (hdep _ _ hd).1) (by decide)
  exact ⟨hprompt, (drains_iff fresh_upward).mpr hprompt⟩

theorem finished_of_drains (h : Fresh w) (huninterrupted : Uninterrupted executor) (hd : Drains executor w)
    {left : ℕ} (hleft : work w < left) :
    ∀ n ∈ (stepAll executor left 0 { workflow := w }).1.workflow.nodes, Finished n.status := by
  obtain ⟨bound, s', r, hrun, -, hfinished, -⟩ := hd
  obtain ⟨s₁, t, -, hends, -⟩ := stepAll_ends (s := { workflow := w }) huninterrupted h.steady 0
  obtain ⟨order, hvalid⟩ := h.valid
  have hresult := hrun (max bound left) (le_max_left bound left)
  unfold runUntilComplete at hresult
  simp only at hresult
  rw [hvalid, hends (max bound left) (hleft.trans_le (le_max_right bound left))] at hresult
  obtain ⟨rfl, -⟩ := Prod.mk.inj hresult
  rw [hends left hleft]
  exact hfinished

/-- A chain whose nodes were added against its order. -/
def chain : Workflow Unit := { nodes := [
  { id := "d", dependsOn := ["c"] }, { id := "c", dependsOn := ["b"] }, { id := "b", dependsOn := ["a"] },
  { id := "a", maxRetries := 0 }] }

/-- The first node of the chain fails, and the last one stays `PENDING`. -/
theorem pending_after_failure : Fresh chain ∧ ¬ Drains (failing "a") chain := by
  have hfresh : Fresh chain := ⟨by decide, ⟨["a", "b", "c", "d"], by decide_cbv⟩, by decide, rfl⟩
  refine ⟨hfresh, fun hd => ?_⟩
  have hfinished := finished_of_drains hfresh (uninterrupted_failing "a") hd
    (show work chain < 11 by decide)
  have hpending : ∃ n ∈ (stepAll (failing "a") 11 0 { workflow := chain }).1.workflow.nodes,
      n.status = .pending := by
    decide
  obtain ⟨n, hn, hs⟩ := hpending
  rcases hfinished n hn with h | h | h
  · exact absurd (hs.symm.trans h) (by decide)
  · exact absurd (hs.symm.trans h) (by decide)
  · exact absurd (hs.symm.trans h) (by decide)

/-- **Every run ends**, and what it leaves undone has failed, or depends on what has failed. -/
theorem run_ends (huninterrupted : Uninterrupted executor) (h : Fresh w) : ∃ s' r,
    (∀ maxSteps, work w < maxSteps → runUntilComplete executor maxSteps { workflow := w } = (s', .ok r)) ∧
      ∀ id ∈ w.ids, Done s'.workflow id ∨
        ∃ a, ReflTransGen (Dep w) a id ∧ Passes.status s'.workflow a = some .failed := by
  obtain ⟨rank, hrank⟩ := h.ranked
  obtain ⟨s', t, v, hrun, hsame, hsteady, hj, hend⟩ :=
    stepAll_ends (s := { workflow := w }) huninterrupted h.steady 0
  have hlively := lively_judged hsteady.lively hj
  have hsame' := hsame.trans hj.same
  refine ⟨s', summary t s'.workflow, fun maxSteps hlt => ?_, fun id hid => ?_⟩
  · obtain ⟨order, hvalid⟩ := h.valid
    unfold runUntilComplete
    simp only
    rw [hvalid, hrun maxSteps hlt]
  · rw [← hsame'.ids_eq] at hid
    rw [← hsame'.dep_eq, ← hsame'.ids_eq] at hrank
    rw [← hsame'.dep_eq]
    induction hr : rank id using Nat.strongRecOn generalizing id with
    | _ r ih =>
      obtain ⟨n, hn⟩ := node_of_mem_ids hid
      have hstatus := status_of_node hn
      have hidle := hlively.idle id
      have hready := hend id
      rw [hstatus] at hidle hready
      generalize n.status = s at hstatus hidle hready
      cases s with
      | completed => exact Or.inl hstatus
      | failed => exact Or.inr ⟨id, .refl, hstatus⟩
      | blocked =>
        obtain ⟨a, ha, hreach⟩ := failed_of_broken hlively hrank (Or.inr hstatus)
        exact Or.inr ⟨a, hreach, ha⟩
      | ready => exact absurd rfl hready
      | running => exact absurd rfl hidle.1
      | skipped => exact absurd rfl hidle.2
      | pending =>
        -- it waits for what is not done
        obtain ⟨m, hm, hfate⟩ := hj.fate hstatus
        obtain ⟨d, hd, hopen⟩ : ∃ d ∈ m.dependsOn, ¬ Done v d := by
          generalize hp : NodeStatus.pending = s at hfate
          cases hfate with
          | kept h => exact absurd hp.symm h
          | blocked => cases hp
          | ready => cases hp
          | waits _ _ hopen => exact hopen
        have hdep : Dep s'.workflow d id := hj.same.dep_eq ▸ ⟨m, hm, hd⟩
        rcases ih (rank d) (hr ▸ (hrank d id hdep).2) d (hrank d id hdep).1 rfl with hdone | ⟨a, hreach, ha⟩
        · exact absurd (hj.done_iff.mp hdone) hopen
        · exact Or.inr ⟨a, hreach.tail hdep, ha⟩

theorem run_ends_chain : ∃ s' r, runUntilComplete (failing "a") 11 { workflow := chain } = (s', .ok r) ∧
    (Done s'.workflow "d" ∨ ∃ a, ReflTransGen (Dep chain) a "d" ∧ Passes.status s'.workflow a = some .failed) := by
  obtain ⟨s', r, hrun, hends⟩ :=
    run_ends (uninterrupted_failing "a") (w := chain) ⟨by decide, ⟨["a", "b", "c", "d"], by decide_cbv⟩, by decide, rfl⟩
  exact ⟨s', r, hrun 11 (by decide), hends "d" (by decide)⟩

end Smara.Flow.Drain
