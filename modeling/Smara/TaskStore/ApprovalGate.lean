import Smara.TaskStore.Cancellation

/-! # The approval gate

A task created with `requires_approval` and a desktop or sandbox step is gated.

* `gate_closed`: in every reachable state a task that requires approval is not running, and
  `claim_one` starts no desktop step.
* `approval_gate`: no step of a gated task starts without an approval since its creation or last retry,
  nor after a denial since then, in every run in which no report requeues a step of the task while its
  decision is `denied`.

The invariant `Gated` ties the history to the tables: a task that needs no approval has been approved
since its last retry, and a denial since then keeps it in a terminal status, waiting for a retry. -/

namespace Smara.TaskStore.ApprovalGate

open Lib.Machine Lib.Table Lib.Transaction TaskStore.Schema TaskStore.Schema.TaskDb
open TaskStore.Lifecycle TaskStore.Claim TaskStore.Report TaskStore.Calls
open TaskStore.Control TaskStore.View TaskStore.Effects TaskStore.Refine
open TaskStore.Frame TaskStore.Cancellation

variable {db : TaskDb} {t : Uuid} {c c' : State} {a : Act}

/-! ### Closed gates -/

def Closed (c : State) : Prop :=
  ∀ t tk, c.task t = some tk → tk.requiresApproval = true → tk.status ≠ .running

theorem closed_apply (h : Closed c) (he : Enabled c a) : Closed (apply c a) := by
  intro t tk htk hr
  by_cases ht : actTask a = t
  swap
  · exact h t tk ((frame he ht).task ▸ htk) hr
  subst ht
  rcases of_task_apply htk with ⟨tk₀, h₀, rfl⟩ | ⟨-, _, _, _, _, _, rfl, rfl⟩
  swap
  · simp
  have hrun := h _ tk₀ h₀
  cases a with
  | start s t =>
    obtain ⟨-, ⟨tk', htk', hs, hgate⟩, -⟩ := he
    obtain rfl : tk₀ = tk' := Option.some.inj (h₀.symm.trans htk')
    exact absurd ⟨hr, hs.resolve_right (hrun hr)⟩ hgate
  | cancel t idle => cases idle <;> simp [taskAfter]
  | retry t gated => cases gated <;> simp [taskAfter]
  | complete s t ending => cases ending <;> first | exact hrun hr | simp [taskAfter]
  | requeue s t =>
    simp only [taskAfter] at hr ⊢
    split_ifs with hs
    · simp
    · exact hs
  | insert | record => exact hrun hr
  | _ => simp [taskAfter] at hr ⊢

/-! ### Gated tasks -/

structure Gated (t : Uuid) (c : State) : Prop where
  localStep : ∃ s st, StepOf c s t st ∧ (st.kind = .desktop ∨ st.kind = .sandbox)
  task : ∃ tk, c.task t = some tk ∧
    (tk.requiresApproval = false → .approved ∈ since t c) ∧
    (.denied ∈ since t c →
      tk.requiresApproval = true ∧ Terminal tk.status ∧ c.approval t = some .denied)

/-- The acts that break the gate: a requeuing failure after a denial. A forged event would, too. -/
def Breaks (t : Uuid) (c : State) : Act → Prop
  | .failRetry _ t' => t' = t ∧ c.approval t = some .denied
  | .record t' _ => t' = t
  | _ => False

theorem gated_apply (h : Gated t c) (he : Enabled c a) (ha : ¬ Breaks t c a) :
    Gated t (apply c a) := by
  have hlocal : ∃ s st, StepOf (apply c a) s t st ∧ (st.kind = .desktop ∨ st.kind = .sandbox) := by
    obtain ⟨s, st, hs, hk⟩ := h.localStep
    obtain ⟨st', hs', hkept⟩ := stepOf_kept a hs
    exact ⟨s, st', hs', hkept.2.2.1 ▸ hk⟩
  refine ⟨hlocal, ?_⟩
  obtain ⟨tk, htk, happ, hden⟩ := h.task
  by_cases ht : actTask a = t
  swap
  · have hs := frame he ht
    exact ⟨tk, hs.task.trans htk, by rwa [hs.since], by rwa [hs.since, hs.approval]⟩
  subst ht
  have hsame : ∀ {tk'}, c.task (actTask a) = some tk' → tk' = tk :=
    fun h => Option.some.inj (h.symm.trans htk)
  have hterm : ¬ Terminal tk.status → .denied ∉ since (actTask a) c := fun hn hd => hn (hden hd).2.1
  refine ⟨taskAfter a tk, task_apply a htk, ?_, ?_⟩ <;> rw [since_apply]
  · intro hr
    cases a with
    | insert t => exact absurd (htk.symm.trans he.1) (by simp)
    | deny t => simp [taskAfter] at hr
    | retry t gated =>
      -- a task with a local step is retried behind the gate
      obtain ⟨tk', -, -, -, hg⟩ := he
      obtain ⟨s, st, hs, hk⟩ := h.localStep
      simp [taskAfter, hg.mpr (Or.inr ⟨s, st, hs, hk⟩)] at hr
    | approve t => simp [marksOf, addMarkSince]
    | requeue s t =>
      have hr' : tk.requiresApproval = false := by
        simp only [taskAfter] at hr
        split_ifs at hr <;> exact hr
      exact happ hr'
    | complete s t ending => cases ending <;> simpa [marksOf, addMarkSince] using happ hr
    | gate | drop | expire | failRetry | failFinal => exact happ hr
    | cancel | start => simpa [marksOf, addMarkSince] using happ hr
    | record => exact absurd rfl ha
  · rw [approval_apply]
    intro hd
    cases a with
    | insert t => exact absurd (htk.symm.trans he.1) (by simp)
    | gate t =>
      obtain ⟨tk', htk', -, hs⟩ := he
      obtain rfl := hsame htk'
      exact absurd hd (hterm (by simp [hs, Terminal]))
    | approve t =>
      obtain ⟨tk', htk', -, hs⟩ := he
      obtain rfl := hsame htk'
      exact absurd (by simpa [marksOf, addMarkSince] using hd)
        (hterm (by rcases hs with hs | hs <;> simp [hs, Terminal]))
    | deny t => exact ⟨rfl, Or.inr (Or.inr rfl), rfl⟩
    | cancel t idle =>
      obtain ⟨⟨tk', htk', hnt⟩, -⟩ := he
      obtain rfl := hsame htk'
      exact absurd (by simpa [marksOf, addMarkSince] using hd) (hterm hnt)
    | retry => simp [marksOf, addMarkSince] at hd
    | requeue s t =>
      obtain ⟨hr, hs, happr⟩ := hden hd
      have hrun : tk.status ≠ .running := by rcases hs with hs | hs | hs <;> simp [hs]
      rw [taskAfter, if_neg hrun]
      exact ⟨hr, hs, happr⟩
    | drop =>
      obtain ⟨hr, -, happr⟩ := hden hd
      exact ⟨hr, Or.inr (Or.inr rfl), happr⟩
    | expire =>
      obtain ⟨hr, -, happr⟩ := hden hd
      exact ⟨hr, Or.inr (Or.inl rfl), happr⟩
    | start s t =>
      obtain ⟨-, ⟨tk', htk', hs, -⟩, -⟩ := he
      obtain rfl := hsame htk'
      exact absurd (by simpa [marksOf, addMarkSince] using hd)
        (hterm (by rcases hs with hs | hs <;> simp [hs, Terminal]))
    | complete s t ending =>
      obtain ⟨hr, hs, happr⟩ := hden (by cases ending <;> simpa [marksOf, addMarkSince] using hd)
      cases ending
      · exact ⟨hr, Or.inr (Or.inr rfl), happr⟩
      · exact ⟨hr, Or.inl rfl, happr⟩
      · exact ⟨hr, hs, happr⟩
    | failRetry s t => exact absurd ⟨rfl, (hden hd).2.2⟩ ha
    | failFinal =>
      obtain ⟨hr, -, happr⟩ := hden hd
      exact ⟨hr, Or.inr (Or.inl rfl), happr⟩
    | record => exact absurd rfl ha

/-! ### Runs -/

def taskSince (t : Uuid) (db : TaskDb) : List Mark := sinceReset (history db.taskEvents t)

/-- The decision of a task is `denied`. -/
def Denied (t : Uuid) (db : TaskDb) : Prop :=
  ∃ a ∈ lookup Approval.taskId t db.approvals, a.status = .denied

/-- The call reports a failure that requeues a step of the task while its decision is `denied`. -/
def RequeuesDenied (t : Uuid) (db : TaskDb) : Call → Prop
  | .failStep _ s a _ _ r => ∃ row ∈ ownedStep s a db, row.taskId = t ∧ Retries r row ∧ Denied t db
  | .failExecutorStep _ e _ s _ => ∃ row ∈ leasedStep s e db, row.taskId = t ∧
      Retries (row.requiredCapability = some "local_file_read") row ∧ Denied t db
  | _ => False

def IsClaimOne : Call → Prop
  | .claimOne .. => True
  | _ => False

instance : DecidablePred IsClaimOne := fun call => by
  apply @Call.casesOn (fun call => Decidable (IsClaimOne call)) call <;> intros <;> unfold IsClaimOne <;> infer_instance

/-- The gate at a call: `claim_one` starts no desktop step, and a step of `t` is started with an
approval and no denial since the creation of the task or its last retry. -/
def Gate (t : Uuid) (db : TaskDb) (call : Call) : Prop :=
  (∀ s ∈ db.taskSteps, started db call = some s.id → IsClaimOne call → s.executorKind ≠ .desktop) ∧
  ∀ s ∈ db.taskSteps, s.taskId = t → started db call = some s.id →
    .approved ∈ taskSince t (step db call) ∧ .denied ∉ taskSince t (step db call)

instance (t : Uuid) (db : TaskDb) (call : Call) : Decidable (Gate t db call) := by
  unfold Gate; infer_instance

theorem not_breaks {call : Call} (hd : ¬ RequeuesDenied t db call) (hu : Unforged call)
    (hm : MayDo db call c a) : ¬ Breaks t c a := by
  have hden : ∀ i, (view db).approval i = some .denied → Denied i db := fun i h => by
    obtain ⟨x, hx, hs⟩ := Option.map_eq_some_iff.mp h
    exact ⟨x, hx, hs⟩
  intro ha
  cases hm with
  | failRetry h hr => exact hd ⟨_, h, ha.1, hr, hden t ha.2⟩
  | failRetryDesktop h hr _ _ => exact hd ⟨_, h, ha.1, hr, hden t ha.2⟩
  | record h => simp [Unforged, h] at hu
  | _ => exact ha

theorem closed_reachable (hr : Reachable step {} db) : Closed (view db) := by
  refine (inv_reachable (I := fun db => db.Constraints ∧ Closed (view db)) (fun db call h =>
    ⟨constraints_step call h.1, inv_step h.1 (fun _ _ hc he _ => closed_apply hc he) h.2⟩)
    ⟨constraints_empty, fun t tk htk => ?_⟩ hr).2
  simp [view, lookup] at htk

theorem gated_step {call : Call} (h : db.Constraints) (hg : Gated t (view db))
    (hd : ¬ RequeuesDenied t db call) (hu : Unforged call) : Gated t (view (step db call)) :=
  inv_step h (fun _ _ hc he hm => gated_apply hc he (not_breaks hd hu hm)) hg

theorem gate_of_gated {call : Call} (h : db.Constraints) (hcl : Closed (view db))
    (hg : Gated t (view db)) (hd : ¬ RequeuesDenied t db call) (hu : Unforged call) :
    Gate t db call := by
  constructor
  · intro s hs hstart hcall hdesk
    obtain ⟨c, t', ⟨hc, st, hst⟩, ⟨⟨st', hst', -⟩, ⟨tk, htk, hstatus, hgate⟩, -⟩, hm, -⟩ :=
      started_spec (I := fun c => Closed c ∧ ∃ st, c.step s.id = some st ∧ st.kind = .desktop) h
        (fun _ a hc he _ => ⟨closed_apply hc.1 he, by
          obtain ⟨st, hst, hk⟩ := hc.2
          obtain ⟨st', hst', hkept⟩ := step_kept a hst
          exact ⟨st', hst', hkept.2.2.1.trans hk⟩⟩)
        ⟨hcl, _, view_step_of_mem (keys_of_constraints h) hs, hdesk⟩ hstart
    cases hm with
    | startHosted hdesktop =>
      have hr := hdesktop st tk hst.1 htk hst.2
      exact hstatus.elim (fun hq => hgate ⟨hr, hq⟩) (hc t' tk htk hr)
    | startDesktop => exact hcall
  · intro s hs hst hstart
    obtain ⟨c, t', ⟨hc, hgt, st, hst⟩, ⟨⟨st', hst', -⟩, ⟨tk, htk, hstatus, hgate⟩, -⟩, -, hview⟩ :=
      started_spec (I := fun c => Closed c ∧ Gated t c ∧ ∃ st, StepOf c s.id t st) h
        (fun _ a hc he hm => ⟨closed_apply hc.1 he, gated_apply hc.2.1 he (not_breaks hd hu hm),
          (stepOf_kept a hc.2.2.choose_spec).imp fun _ => And.left⟩)
        ⟨hcl, hg, _, hst ▸ stepOf_of_mem (keys_of_constraints h) hs⟩ hstart
    obtain rfl : st = st' := Option.some.inj (hst.1.symm.trans hst'.1)
    obtain rfl : t' = t := hst'.2.symm.trans hst.2
    have hr : tk.requiresApproval = false := by
      by_contra hr
      rw [Bool.not_eq_false] at hr
      exact hstatus.elim (fun hq => hgate ⟨hr, hq⟩) (hc t' tk htk hr)
    obtain ⟨tk', htk', happ, hden⟩ := hgt.task
    obtain rfl : tk = tk' := Option.some.inj (htk.symm.trans htk')
    have hsince : taskSince t' (step db call) = since t' c ++ [.started] := by
      rw [show taskSince t' (step db call) = since t' (view (step db call)) from rfl, hview]
      exact since_apply c (.start s.id t')
    rw [hsince]
    constructor
    · simp [happ hr]
    · intro hd
      simp only [List.mem_append, List.mem_singleton, reduceCtorEq, or_false] at hd
      simp [hr] at hden
      exact hden hd

theorem gated_of_create {db₀ : TaskDb} {env : Env} {a w ti o : String} {ss : List StepInput}
    {m : ApprovalMode} {r : Reply}
    (hlocal : ∃ s ∈ ss, s.executorKind = .desktop ∨ s.executorKind = .sandbox)
    (hok : exec db₀ (.create env a w ti o true ss m) = (.ok r, db)) :
    Gated (env.uuid db₀.tasks.length) (view db) := by
  obtain ⟨task', hcreate, -⟩ := replying_ok hok
  obtain ⟨taskId, db', hw, hlast⟩ := andThen_ok hcreate
  obtain ⟨-, rfl⟩ := query_ok hlast
  obtain ⟨hbody, hc⟩ := transaction_ok hw
  obtain ⟨task, hid, -, -, hgated, -, -, -, rfl⟩ := insertTask_ok hbody
  have hk := keys_of_constraints hc
  rw [← hid]
  constructor
  · obtain ⟨s, hs, hkind⟩ := hlocal
    have hss : orDefault ss = ss := if_neg (List.ne_nil_of_mem hs)
    obtain ⟨row, hrow, ht, hk'⟩ := exists_mem_stepRows (hss.symm ▸ hs)
    exact ⟨row.id, _, ht ▸ stepOf_of_mem hk (List.mem_append_right _ hrow), by
      rwa [stepCtl, hk']⟩
  · refine ⟨taskCtl task, view_task_of_mem hk (List.mem_append_right _ (List.mem_singleton_self _)),
      fun h => ?_, fun h => ?_⟩
    · simp [taskCtl, hgated] at h
    · rw [since, view_logEvent_some rfl] at h
      simp [sinceReset_append, addMarkSince] at h

/-- **The approval gate.** -/
theorem approval_gate {db₀ : TaskDb} (hr : Reachable step {} db₀) {env : Env} {a w ti o : String}
    {ss : List StepInput} {m : ApprovalMode} {r : Reply}
    (hlocal : ∃ s ∈ ss, s.executorKind = .desktop ∨ s.executorKind = .sandbox)
    (hok : exec db₀ (.create env a w ti o true ss m) = (.ok r, db)) {calls : List Call}
    (hu : ∀ call ∈ calls, Unforged call)
    (hd : Along step (fun db call => ¬ RequeuesDenied (env.uuid db₀.tasks.length) db call)
      db calls) :
    (∀ task ∈ (run step db calls).tasks, task.requiresApproval = true → task.status ≠ .running) ∧
      Along step (Gate (env.uuid db₀.tasks.length)) db calls := by
  have hdb : Reachable step {} db := by
    have := hr.run [.create env a w ti o true ss m]
    rwa [run_cons, run_nil, step, hok] at this
  have hcons : ∀ {db}, Reachable step {} db → db.Constraints :=
    inv_reachable (fun _ call h => constraints_step call h) constraints_empty
  constructor
  · intro task ht
    exact closed_reachable (hdb.run calls) task.id _
      (view_task_of_mem (keys_of_constraints (hcons (hdb.run calls))) ht)
  · have hguard := along_and.mpr ⟨along_of_forall hu, hd⟩
    exact along_of_inv (I := fun db => db.Constraints ∧ Closed (view db) ∧
        Gated (env.uuid db₀.tasks.length) (view db))
      (fun db call hI hG => ⟨constraints_step call hI.1,
        inv_step hI.1 (fun _ _ hc he _ => closed_apply hc he) hI.2.1,
        gated_step hI.1 hI.2.2 hG.2 hG.1⟩)
      (fun db call hI hG => gate_of_gated hI.1 hI.2.1 hI.2.2 hG.2 hG.1)
      ⟨hcons hdb, closed_reachable hdb, gated_of_create hlocal hok⟩ hguard

def sandboxSteps : List StepInput :=
  [{ name := "left", executorKind := .sandbox }, { name := "right", executorKind := .sandbox }]

def createGated : Call := .create (envAt 0) "a" "w" "title" "objective" true sandboxSteps .hosted

def claimAt (n : ℤ) : Call := .claimOne (envAt n) "worker" 60 [.hosted, .sandbox]

/-- The witness: the task is approved and a step of it is started. -/
theorem approval_gate_of_approved :
    (∀ task ∈ (run step (step {} createGated)
      [.decide (envAt 1) 0 "a" true "" "user", claimAt 2]).tasks,
        task.requiresApproval = true → task.status ≠ .running) ∧
      Along step (Gate 0) (step {} createGated)
        [.decide (envAt 1) 0 "a" true "" "user", claimAt 2] :=
  have hok : exec {} createGated = (.ok .none, step {} createGated) := by decide
  approval_gate ⟨[], rfl⟩ (by decide) hok (by simp [Unforged, claimAt]) ⟨id, id, trivial⟩

/-- **The claim fails**: both steps run, the left one fails for good, the task is retried and denied,
and then the right one reports a retryable failure. The task is queued again, approved, and a step of it
is started after the denial, with no retry in between. -/
theorem started_after_denial :
    ¬ Along step (Gate 0) (step {} createGated)
      [.decide (envAt 1) 0 "a" true "" "user", claimAt 2, claimAt 3,
        .failStep (envAt 4) 0 "a" "boom" 5 false, .retryTask (envAt 5) 0 "a",
        .decide (envAt 6) 0 "a" false "" "user", .failStep (envAt 7) 1 "a" "boom" 5 true,
        .decide (envAt 8) 0 "a" true "" "user", claimAt 20] := by decide

end Smara.TaskStore.ApprovalGate
