import Smara.Flow.Schema
import Smara.Lib.Machine

/-! # What the executor may rely on

A node that is `READY` is executed without another look at its dependencies. `Sound` says that they are
all `COMPLETED`; a change of the graph may break it.

* `sound_updateNodeReadiness`, `executeAll_keeps`, `sound_retryNode`: what keeps it.
* `dependencies_done`: in every run that injects no open dependency into a `READY` node, the executor
  is called on nodes whose dependencies are `COMPLETED`.
* `executed_before_injected`: a run that does. -/

namespace Smara.Flow.Readiness

open Lib.Table Lib.Worklist Flow.Schema
open Lib.Machine (run Along along_of_inv inv_run)

variable {ρ : Type} {w w' : Workflow ρ} {s : Session ρ} {n : DAGNode ρ}
  {id d : String} {f : DAGNode ρ → DAGNode ρ}

/-! ### Sound workflows -/

def Done (w : Workflow ρ) (id : String) : Prop := (w.node id).map DAGNode.status = some .completed

instance (w : Workflow ρ) (id : String) : Decidable (Done w id) := inferInstanceAs (Decidable (_ = _))

/-- **What is `READY` may be executed**: its dependencies are `COMPLETED`. -/
structure Sound (w : Workflow ρ) : Prop where
  keyed : Keyed DAGNode.id w.nodes
  ready : ∀ n ∈ w.nodes, n.status = .ready → ∀ d ∈ n.dependsOn, Done w d

theorem node_upd (hf : ∀ n, (f n).id = n.id) :
    (w.upd id f).node d = (w.node d).map fun n => if n.id = id then f n else n := by
  unfold Workflow.node Workflow.upd
  exact lookup_updateWhere fun n _ => hf n

theorem node_upd_self (hf : ∀ n, (f n).id = n.id) (hn : w.node id = some n) :
    (w.upd id f).node id = some (f n) := by
  rw [node_upd hf, hn, Option.map_some, if_pos (key_of_lookup hn)]

theorem node_upd_of_ne (hf : ∀ n, (f n).id = n.id) (hd : d ≠ id) :
    (w.upd id f).node d = w.node d := by
  rw [node_upd hf]
  cases hl : w.node d with
  | none => rfl
  | some m =>
    have hm : m.id ≠ id := fun h => hd ((key_of_lookup hl).symm.trans h)
    rw [Option.map_some, if_neg hm]

theorem done_upd (hf : ∀ n, (f n).id = n.id) (hn : w.node id = some n)
    (hopen : n.status ≠ .completed) (hd : Done w d) : Done (w.upd id f) d := by
  have hne : d ≠ id := by
    rintro rfl
    unfold Done at hd
    rw [hn] at hd
    exact hopen (Option.some.inj hd)
  unfold Done
  rw [node_upd_of_ne hf hne]
  exact hd

theorem mem_of_node (hn : w.node id = some n) : n ∈ w.nodes := mem_of_lookup hn

theorem eq_of_node (h : Sound w) {m : DAGNode ρ} (hm : m ∈ w.nodes) (hid : m.id = id)
    (hn : w.node id = some n) : m = n :=
  h.keyed.eq_of_key hm (mem_of_node hn) (hid.trans (key_of_lookup hn).symm)

theorem sound_upd (h : Sound w) (hf : ∀ n, (f n).id = n.id) (hn : w.node id = some n)
    (hopen : n.status ≠ .completed)
    (hready : (f n).status = .ready → ∀ d ∈ (f n).dependsOn, Done w d) : Sound (w.upd id f) := by
  refine ⟨(keyed_updateWhere fun n _ => hf n).mpr h.keyed, fun m hm hstatus d hd => ?_⟩
  refine done_upd hf hn hopen ?_
  obtain ⟨r, hr, rfl⟩ := mem_updateWhere.mp hm
  split_ifs at hstatus hd with hid
  · obtain rfl := eq_of_node h hr hid hn
    exact hready hstatus d hd
  · exact h.ready r hr hstatus d hd

/-! ### Readiness -/

theorem getItem_eq_ok {m : DAGNode ρ} : w.getItem d = .ok m ↔ w.node d = some m := by
  unfold Workflow.getItem
  cases w.node d <;> simp

theorem mem_dependencies {deps : List (DAGNode ρ)} (h : dependencies n w = .ok deps)
    (hd : d ∈ n.dependsOn) : ∃ m ∈ deps, w.node d = some m := by
  unfold dependencies at h
  generalize n.dependsOn = ids at h hd
  induction ids generalizing deps with
  | nil => cases hd
  | cons id ids ih =>
    rw [List.mapM_cons] at h
    cases hid : w.getItem id with
    | error e =>
      rw [hid] at h
      cases h
    | ok m =>
      rw [hid] at h
      cases hids : ids.mapM (fun d => w.getItem d) with
      | error e =>
        rw [hids] at h
        cases h
      | ok ms =>
        rw [hids] at h
        obtain rfl : m :: ms = deps := Except.ok.inj h
        rcases List.mem_cons.mp hd with rfl | hd
        · exact ⟨m, List.mem_cons_self, getItem_eq_ok.mp hid⟩
        · obtain ⟨m', hm', hnode⟩ := ih hids hd
          exact ⟨m', List.mem_cons_of_mem _ hm', hnode⟩

theorem sound_judge (h : Sound w) (hw : judge id w = .ok w') : Sound w' := by
  unfold judge at hw
  cases hn : w.node id with
  | none =>
    rw [hn] at hw
    obtain rfl := Except.ok.inj hw
    exact h
  | some n =>
    rw [hn] at hw
    simp only at hw
    split_ifs at hw with hpending
    · obtain rfl := Except.ok.inj hw
      exact h
    have hopen : n.status ≠ .completed := by
      rw [not_not.mp hpending]
      decide
    cases hdeps : dependencies n w with
    | error e =>
      rw [hdeps] at hw
      cases hw
    | ok deps =>
      rw [hdeps] at hw
      simp only at hw
      split_ifs at hw with hfailed hcompleted
      · obtain rfl := Except.ok.inj hw
        exact sound_upd h (fun _ => rfl) hn hopen fun hready => nomatch hready
      · obtain rfl := Except.ok.inj hw
        refine sound_upd h (fun _ => rfl) hn hopen fun _ d hd => ?_
        obtain ⟨m, hm, hnode⟩ := mem_dependencies hdeps hd
        unfold Done
        rw [hnode, Option.map_some, hcompleted m hm]
      · obtain rfl := Except.ok.inj hw
        exact h

theorem sound_judgeAll (h : Sound w) (ids : List String) : Sound (judgeAll ids w).1 := by
  induction ids generalizing w with
  | nil => exact h
  | cons id ids ih =>
    unfold judgeAll
    cases hw : judge id w with
    | error e => exact h
    | ok w' => exact ih (sound_judge h hw)

theorem sound_updateNodeReadiness (h : Sound w) : Sound (updateNodeReadiness w).1 :=
  sound_judgeAll h w.ids

/-! ### Execution -/

/-- The executor is called on a node whose dependencies are `COMPLETED`. -/
def Respects (e : Execution ρ) : Prop := ∀ d ∈ e.node.dependsOn, Done e.workflow d

/-- The workflow is sound, and so were the calls of executors. -/
structure Kept (s : Session ρ) : Prop where
  sound : Sound s.workflow
  respects : ∀ e ∈ s.log, Respects e

theorem settle_id (outcome : Outcome ρ) (n : DAGNode ρ) : (settle outcome n).id = n.id := by
  cases outcome with
  | returned result => rfl
  | raised message =>
    unfold settle
    split_ifs <;> rfl
  | interrupted => rfl

theorem settle_dependsOn (outcome : Outcome ρ) (n : DAGNode ρ) :
    (settle outcome n).dependsOn = n.dependsOn := by
  cases outcome with
  | returned result => rfl
  | raised message =>
    unfold settle
    split_ifs <;> rfl
  | interrupted => rfl

theorem executeAll_keeps {executor : Executor ρ} {ids : List String} {s : Session ρ} (h : Kept s)
    (hnodup : ids.Nodup)
    (hready : ∀ id ∈ ids, (s.workflow.node id).map DAGNode.status = some .ready) :
    Kept (executeAll executor ids s).1 := by
  induction ids generalizing s with
  | nil => exact h
  | cons id ids ih =>
    obtain ⟨hid, hids⟩ := List.nodup_cons.mp hnodup
    obtain ⟨n, hn, hstatus⟩ := Option.map_eq_some_iff.mp (hready id List.mem_cons_self)
    let start (n : DAGNode ρ) : DAGNode ρ := { n with status := .running }
    have hopen : n.status ≠ .completed := by
      rw [hstatus]
      decide
    have hrunning : (s.workflow.upd id start).node id = some (start n) :=
      node_upd_self (fun _ => rfl) hn
    have hsound : Sound (s.workflow.upd id start) :=
      sound_upd h.sound (fun _ => rfl) hn hopen fun hready => nomatch hready
    have hdeps : ∀ d ∈ n.dependsOn, Done (s.workflow.upd id start) d := fun d hd =>
      done_upd (fun _ => rfl) hn hopen (h.sound.ready n (mem_of_node hn) hstatus d hd)
    unfold executeAll
    simp only
    rw [hrunning]
    simp only
    generalize hlog : s.log ++ [{ node := start n, workflow := s.workflow.upd id start }] = log
    generalize executor log = outcome
    have hkept : Kept { workflow := (s.workflow.upd id start).upd id (settle outcome), log := log } := by
      refine ⟨?_, ?_⟩
      · refine sound_upd hsound (settle_id outcome) hrunning (fun h => nomatch h) fun _ d hd => ?_
        rw [settle_dependsOn] at hd
        exact hdeps d hd
      · rw [← hlog]
        intro e he
        rcases List.mem_append.mp he with he | he
        · exact h.respects e he
        · obtain rfl := List.mem_singleton.mp he
          exact hdeps
    have hrest : ∀ id' ∈ ids, (((s.workflow.upd id start).upd id (settle outcome)).node id').map
        DAGNode.status = some .ready := by
      intro id' hid'
      have hne : id' ≠ id := fun h => hid (h ▸ hid')
      rw [node_upd_of_ne (settle_id outcome) hne, node_upd_of_ne (f := start) (fun _ => rfl) hne]
      exact hready id' (List.mem_cons_of_mem _ hid')
    cases outcome with
    | returned result => exact ih hkept hids hrest
    | raised message => exact ih hkept hids hrest
    | interrupted => exact hkept

theorem kept_step (h : Kept s) (executor : Executor ρ) : Kept (step executor s).1 := by
  unfold step
  split_ifs
  · exact h
  have hsound : Sound (updateNodeReadiness s.workflow).1 := sound_updateNodeReadiness h.sound
  unfold getReadyNodes Left.andThen
  generalize updateNodeReadiness s.workflow = judged at hsound ⊢
  obtain ⟨w, r⟩ := judged
  cases r with
  | error e => exact ⟨hsound, h.respects⟩
  | ok _ =>
    simp only
    generalize hids : (w.nodes.filter fun n => n.status = .ready).map DAGNode.id = ids
    have hnodup : ids.Nodup := by
      rw [← hids]
      exact hsound.keyed.sublist (List.filter_sublist.map DAGNode.id)
    have hready : ∀ id ∈ ids, (w.node id).map DAGNode.status = some .ready := by
      rw [← hids]
      intro id hid
      obtain ⟨n, hn, rfl⟩ := List.mem_map.mp hid
      obtain ⟨hmem, hstatus⟩ := List.mem_filter.mp hn
      unfold Workflow.node
      rw [lookup_key hsound.keyed hmem, Option.map_some, of_decide_eq_true hstatus]
    have hall : Kept (executeAll executor ids { s with workflow := w }).1 :=
      executeAll_keeps ⟨hsound, h.respects⟩ hnodup hready
    cases ids with
    | nil => exact ⟨hsound, h.respects⟩
    | cons id ids =>
      simp only
      split
      · next heq =>
        rw [heq] at hall
        exact hall
      · next heq =>
        rw [heq] at hall
        exact ⟨sound_updateNodeReadiness hall.sound, hall.respects⟩

theorem kept_stepAll (h : Kept s) (executor : Executor ρ) (left taken : ℕ) :
    Kept (stepAll executor left taken s).1 := by
  induction left generalizing s taken with
  | zero => exact h
  | succ left ih =>
    unfold stepAll
    split_ifs
    · exact h
    have hstep := kept_step h executor
    split
    · next heq =>
      rw [heq] at hstep
      exact hstep
    · next heq =>
      rw [heq] at hstep
      exact hstep
    · next heq =>
      rw [heq] at hstep
      exact ih hstep (taken + 1)

theorem kept_runUntilComplete (h : Kept s) (executor : Executor ρ) (maxSteps : ℕ) :
    Kept (runUntilComplete executor maxSteps s).1 := by
  unfold runUntilComplete
  cases validate s.workflow with
  | error e => exact h
  | ok order =>
    have hall := kept_stepAll h executor maxSteps 0
    simp only
    split
    · next heq =>
      rw [heq] at hall
      exact hall
    · next heq =>
      rw [heq] at hall
      exact hall

/-! ### Retries -/

theorem sound_rewindAll (h : Sound w) {ids : Finset String}
    (hclosed : ∀ n ∈ w.nodes, ∀ d ∈ n.dependsOn, d ∈ ids → n.id ∈ ids) : Sound (rewindAll ids w) := by
  have hid : ∀ n : DAGNode ρ, n.id ∈ ids → (rewind n).id = n.id := fun _ _ => rfl
  refine ⟨(keyed_updateWhere hid).mpr h.keyed, fun m hm hstatus d hd => ?_⟩
  obtain ⟨n, hn, rfl⟩ := mem_updateWhere.mp hm
  split_ifs at hstatus hd with hreset
  · cases hstatus
  have hdone : Done w d := h.ready n hn hstatus d hd
  have hkeeps : d ∉ ids := fun hd' => hreset (hclosed n hn d hd hd')
  unfold Done Workflow.node at hdone ⊢
  unfold rewindAll
  rw [lookup_updateWhere hid]
  cases hl : lookup DAGNode.id d w.nodes with
  | none =>
    rw [hl] at hdone
    cases hdone
  | some m =>
    have hm : m.id ∉ ids := (key_of_lookup hl).symm ▸ hkeeps
    rw [Option.map_some, if_neg hm, ← hl]
    exact hdone

theorem sound_retryNode (h : Sound w) (id : String) : Sound (retryNode id w).1 := by
  unfold retryNode
  split_ifs with hid
  · refine sound_updateNodeReadiness (sound_rewindAll h fun n hn d hd hreset => ?_)
    obtain ⟨key, hkey, rfl⟩ := Finset.mem_image.mp hreset
    have hchild : (⟨n.id, List.mem_map_of_mem hn⟩ : w.Key) ∈ downstream w key := by
      refine List.mem_flatMap.mpr ⟨⟨n, hn⟩, List.mem_attach _ _, ?_⟩
      exact List.mem_map.mpr ⟨key.1, List.mem_filter.mpr ⟨hd, decide_eq_true rfl⟩, rfl⟩
    refine Finset.mem_image.mpr ⟨⟨n.id, List.mem_map_of_mem hn⟩, ?_, rfl⟩
    exact closed_collect (fun k hk => absurd hk (Finset.notMem_empty k)) key hkey _ hchild
  · exact h

/-! ### Changes of the graph -/

/-- A node that is added may be executed at once only if its dependencies are `COMPLETED`. -/
def Startable (new : DAGNode ρ) (w : Workflow ρ) : Prop :=
  new.id ∉ w.ids → new.status = .ready → ∀ d ∈ new.dependsOn, Done w d

/-- **A target that is `READY` gets no open dependency**: a node with the id of the new one is
`COMPLETED` already. -/
def Settled (new : DAGNode ρ) (before : Option String) (w : Workflow ρ) : Prop :=
  ∀ id ∈ given before, ∀ t ∈ w.nodes, t.id = id → t.status = .ready →
    Done w new.id ∨ (new.id ∉ w.ids ∧ new.status = .completed)

instance (new : DAGNode ρ) (w : Workflow ρ) : Decidable (Startable new w) :=
  inferInstanceAs (Decidable (_ → _ → _))

instance (new : DAGNode ρ) (before : Option String) (w : Workflow ρ) : Decidable (Settled new before w) :=
  inferInstanceAs (Decidable (∀ id ∈ given before, _))

theorem mem_ids : id ∈ w.ids ↔ ∃ n ∈ w.nodes, n.id = id := List.mem_map

theorem node_append {new : DAGNode ρ} (hd : Done w d) :
    Done { w with nodes := w.nodes ++ [new] } d := by
  unfold Done Workflow.node at hd ⊢
  cases hl : lookup DAGNode.id d w.nodes with
  | none =>
    rw [hl] at hd
    cases hd
  | some m =>
    rw [hl] at hd
    rw [lookup_append, hl]
    exact hd

/-- A node with a new id is added to a workflow whose nodes rely on it, or on what is `COMPLETED`. -/
theorem sound_append {new : DAGNode ρ} (hkeyed : Keyed DAGNode.id w.nodes) (hid : new.id ∉ w.ids)
    (hready : ∀ n ∈ w.nodes, n.status = .ready → ∀ d ∈ n.dependsOn,
      Done w d ∨ (d = new.id ∧ new.status = .completed))
    (hnew : new.status = .ready → ∀ d ∈ new.dependsOn, Done w d) :
    Sound { w with nodes := w.nodes ++ [new] } := by
  have hself (hstatus : new.status = .completed) :
      Done { w with nodes := w.nodes ++ [new] } new.id := by
    have hnone : lookup DAGNode.id new.id w.nodes = none :=
      lookup_eq_none.mpr fun n hn h => hid (mem_ids.mpr ⟨n, hn, h⟩)
    unfold Done Workflow.node
    rw [lookup_append, hnone, Option.none_or]
    simp [lookup, hstatus]
  refine ⟨keyed_append.mpr ⟨hkeyed, List.nodup_singleton _, fun n hn m hm h => ?_⟩, ?_⟩
  · rw [List.mem_singleton.mp hm] at h
    exact hid (mem_ids.mpr ⟨n, hn, h⟩)
  · intro n hn hstatus d hd
    rcases List.mem_append.mp hn with hn | hn
    · rcases hready n hn hstatus d hd with hdone | ⟨rfl, hcompleted⟩
      · exact node_append hdone
      · exact hself hcompleted
    · obtain rfl := List.mem_singleton.mp hn
      exact node_append (hnew hstatus d hd)

theorem sound_addNode (h : Sound w) {new : DAGNode ρ} (hnew : Startable new w) :
    Sound (addNode new w).1 := by
  unfold addNode
  split_ifs with hid
  · exact h
  · exact sound_append h.keyed hid (fun n hn hstatus d hd => Or.inl (h.ready n hn hstatus d hd)) (hnew hid)

theorem comesAfter_id (new : DAGNode ρ) (after : Option String) : (comesAfter new after w).id = new.id := by
  unfold comesAfter
  split
  · split_ifs <;> rfl
  · rfl

theorem comesAfter_status (new : DAGNode ρ) (after : Option String) :
    (comesAfter new after w).status = new.status := by
  unfold comesAfter
  split
  · split_ifs <;> rfl
  · rfl

theorem mem_retarget {new : String} {after : Option String} {t : DAGNode ρ}
    (hd : d ∈ (retarget new after t).dependsOn) : d ∈ t.dependsOn ∨ d = new := by
  obtain ⟨deps, hdeps, heq⟩ : ∃ deps, (∀ d ∈ deps, d ∈ t.dependsOn) ∧
      (retarget new after t).dependsOn = if new ∈ deps then deps else deps ++ [new] := by
    unfold retarget
    split
    · exact ⟨_, fun d hd => List.mem_of_mem_erase hd, rfl⟩
    · exact ⟨_, fun d hd => hd, rfl⟩
  rw [heq] at hd
  split_ifs at hd with hnew
  · exact Or.inl (hdeps d hd)
  · rcases List.mem_append.mp hd with hd | hd
    · exact Or.inl (hdeps d hd)
    · exact Or.inr (List.mem_singleton.mp hd)

theorem mem_comesBefore {new : String} {after before : Option String}
    (hn : n ∈ (comesBefore new after before w).nodes) : ∃ m ∈ w.nodes, m.id = n.id ∧
      m.status = n.status ∧ ∀ d ∈ n.dependsOn, d ∈ m.dependsOn ∨ (d = new ∧ m.id ∈ given before) := by
  unfold comesBefore at hn
  cases hbefore : given before with
  | none =>
    rw [hbefore] at hn
    exact ⟨n, hn, rfl, rfl, fun d hd => Or.inl hd⟩
  | some id =>
    rw [hbefore] at hn
    obtain ⟨m, hm, rfl⟩ := mem_updateWhere.mp hn
    refine ⟨m, hm, ?_⟩
    split_ifs with hid
    · refine ⟨rfl, rfl, fun d hd => ?_⟩
      rcases mem_retarget hd with hd | rfl
      · exact Or.inl hd
      · exact Or.inr ⟨rfl, Option.mem_some.mpr hid.symm⟩
    · exact ⟨rfl, rfl, fun d hd => Or.inl hd⟩

theorem status_comesBefore {new : String} {after before : Option String} :
    ((comesBefore new after before w).node d).map DAGNode.status = (w.node d).map DAGNode.status := by
  unfold comesBefore
  cases given before with
  | none => rfl
  | some id =>
    have hid : ∀ n : DAGNode ρ, (retarget new after n).id = n.id := fun _ => rfl
    simp only
    rw [node_upd hid, Option.map_map]
    congr 1
    funext n
    simp only [Function.comp_apply]
    split_ifs <;> rfl

theorem ids_comesBefore {new : String} {after before : Option String} :
    (comesBefore new after before w).ids = w.ids := by
  unfold comesBefore
  cases given before with
  | none => rfl
  | some id => exact map_updateWhere fun _ _ => rfl

theorem sound_injectNode (h : Sound w) {new : DAGNode ρ} {after before : Option String}
    (hnew : Startable (comesAfter new after w) w) (hsettled : Settled new before w) :
    Sound (injectNode new after before w).1 := by
  have hkeyed : Keyed DAGNode.id (comesBefore new.id after before w).nodes := by
    unfold Keyed
    rw [show (comesBefore new.id after before w).nodes.map DAGNode.id = w.ids from ids_comesBefore]
    exact h.keyed
  have hdone : ∀ {d}, Done w d → Done (comesBefore new.id after before w) d := fun hd => by
    unfold Done
    rw [status_comesBefore]
    exact hd
  have hready : ∀ n ∈ (comesBefore new.id after before w).nodes, n.status = .ready → ∀ d ∈ n.dependsOn,
      Done (comesBefore new.id after before w) d ∨
        (d = new.id ∧ new.id ∉ w.ids ∧ new.status = .completed) := by
    intro n hn hstatus d hd
    obtain ⟨m, hm, hid, hsame, hdeps⟩ := mem_comesBefore hn
    rcases hdeps d hd with hd | ⟨rfl, htarget⟩
    · exact Or.inl (hdone (h.ready m hm (hsame.trans hstatus) d hd))
    rcases hsettled m.id htarget m hm rfl (hsame.trans hstatus) with hcompleted | hcompleted
    · exact Or.inl (hdone hcompleted)
    · exact Or.inr ⟨rfl, hcompleted⟩
  have hadded : Sound (addNode (comesAfter new after w) (comesBefore new.id after before w)).1 := by
    unfold addNode
    rw [comesAfter_id, ids_comesBefore]
    split_ifs with hid
    · refine ⟨hkeyed, fun n hn hstatus d hd => ?_⟩
      rcases hready n hn hstatus d hd with hd | ⟨-, hfresh, -⟩
      · exact hd
      · exact absurd hid hfresh
    · refine sound_append hkeyed ?_ (fun n hn hstatus d hd => ?_) fun hstatus d hd => ?_
      · rw [comesAfter_id, ids_comesBefore]
        exact hid
      · rw [comesAfter_id, comesAfter_status]
        rcases hready n hn hstatus d hd with hd | ⟨hd, -, hcompleted⟩
        · exact Or.inl hd
        · exact Or.inr ⟨hd, hcompleted⟩
      · refine hdone (hnew ?_ hstatus d hd)
        rw [comesAfter_id]
        exact hid
  unfold injectNode Left.andThen
  generalize addNode (comesAfter new after w) (comesBefore new.id after before w) = added at hadded ⊢
  obtain ⟨w', r⟩ := added
  cases r with
  | error e => exact hadded
  | ok _ =>
    simp only
    cases validate w' with
    | error e => exact hadded
    | ok order => exact sound_updateNodeReadiness hadded

/-! ### Runs -/

/-- The call makes no open node a dependency of one that is `READY`. -/
def Fits (s : Session ρ) : Call ρ → Prop
  | .addNode node => Startable node s.workflow
  | .injectNode new after before =>
    Startable (comesAfter new after s.workflow) s.workflow ∧ Settled new before s.workflow
  | _ => True

instance (s : Session ρ) (call : Call ρ) : Decidable (Fits s call) := by
  cases call with
  | addNode node => exact inferInstanceAs (Decidable (Startable node s.workflow))
  | injectNode new after before => exact inferInstanceAs (Decidable (_ ∧ _))
  | step executor => exact isTrue trivial
  | runUntilComplete executor maxSteps => exact isTrue trivial
  | retryNode id => exact isTrue trivial
  | pause => exact isTrue trivial
  | resume => exact isTrue trivial

theorem kept_next (h : Kept s) (call : Call ρ) (hfits : Fits s call) : Kept (next s call) := by
  cases call with
  | addNode node => exact ⟨sound_addNode h.sound hfits, h.respects⟩
  | step executor => exact kept_step h executor
  | runUntilComplete executor maxSteps => exact kept_runUntilComplete h executor maxSteps
  | injectNode new after before =>
    exact ⟨sound_injectNode h.sound hfits.1 hfits.2, h.respects⟩
  | retryNode id => exact ⟨sound_retryNode h.sound id, h.respects⟩
  | pause => exact ⟨⟨h.sound.keyed, h.sound.ready⟩, h.respects⟩
  | resume => exact ⟨⟨h.sound.keyed, h.sound.ready⟩, h.respects⟩

theorem kept_start : Kept ({} : Session ρ) :=
  ⟨⟨List.nodup_nil, fun _ hn => absurd hn List.not_mem_nil⟩, fun _ he => absurd he List.not_mem_nil⟩

/-- **The executor is called on nodes whose dependencies are `COMPLETED`**, in every run whose calls make
no open node a dependency of one that is `READY`. -/
theorem dependencies_done {calls : List (Call ρ)} (hfits : Along next Fits {} calls) :
    ∀ e ∈ (run next {} calls).log, ∀ d ∈ e.node.dependsOn, Done e.workflow d := by
  have hkept : Kept (run next {} calls) :=
    inv_run (I := Kept) (G := Fits) (fun _ call h hcall => kept_next h call hcall) kept_start hfits
  exact hkept.respects

def returns : Executor Unit := fun _ => .returned ()

/-- A workflow of two nodes, and one that is injected between them before the second is `READY`. -/
def injectedEarly : List (Call Unit) :=
  [.addNode { id := "build" }, .addNode { id := "deploy", dependsOn := ["build"] },
   .injectNode { id := "test" } (some "build") (some "deploy"), .runUntilComplete returns 100]

/-- A workflow whose nodes are all executed, in their order. -/
theorem dependencies_done_early :
    (∀ e ∈ (run next {} injectedEarly).log, ∀ d ∈ e.node.dependsOn, Done e.workflow d) ∧
      (run next {} injectedEarly).log.map (fun e => e.node.id) = ["build", "test", "deploy"] :=
  ⟨dependencies_done (by decide_cbv), by decide_cbv⟩

/-- The same workflow, when the node is injected after a step. -/
def injectedLate : List (Call Unit) :=
  [.addNode { id := "build" }, .addNode { id := "deploy", dependsOn := ["build"] }, .step returns,
   .injectNode { id := "test" } (some "build") (some "deploy"), .step returns]

/-- **A node is executed before the one that was injected before it.** -/
theorem executed_before_injected :
    (run next {} injectedLate).log.map (fun e => e.node.id) = ["build", "deploy", "test"] ∧
      ∃ e ∈ (run next {} injectedLate).log, ∃ d ∈ e.node.dependsOn, ¬ Done e.workflow d := by
  decide +kernel

end Smara.Flow.Readiness
