import Smara.TaskStore.Calls
import Smara.TaskStore.View

/-! # The writes of the store as acts

Each writing transaction changes the control state by one act: `view_insertRows`, `view_decideWrite`,
`view_cancelWrite`, `view_retryWrite`, `view_recoverHosted`, `view_startStep`, `view_completeStepWrite`
and `view_failStepWrite`. The equations hold in any tables with their keys; when an act is enabled is
the matter of the call that makes it. -/

namespace Smara.TaskStore.Effects

open Lib.Table Lib.Transaction TaskStore.Schema TaskStore.Schema.TaskDb
open TaskStore.Lifecycle TaskStore.Claim TaskStore.Report
open TaskStore.Control TaskStore.View

variable {db db' : TaskDb} {env : Env} {now : Time}

/-! ### Creation -/

def insertedSteps (env : Env) (db : TaskDb) (steps : List StepInput) : List (Uuid × ExecutorKind) :=
  steps.zipIdx.map fun (step, i) => (stepIdAt env db i, step.executorKind)

def insertedDeps (env : Env) (db : TaskDb) (steps : List StepInput) : List (Uuid × Uuid) :=
  (dependencyRows env db steps).map fun d => (d.stepId, d.dependsOnStepId)

theorem lookup_stepRows (taskId runId : Uuid) (steps : List StepInput) (i : Uuid) :
    (lookup TaskStep.id i (stepRows env db taskId runId now steps)).map stepCtl =
      newStep taskId runId (insertedSteps env db steps) i := by
  simp only [lookup, stepRows, newStep, insertedSteps, List.find?_map, Option.map_map]
  rfl

theorem exists_mem_stepRows {taskId runId : Uuid} {steps : List StepInput} {step : StepInput}
    (h : step ∈ steps) : ∃ row ∈ stepRows env db taskId runId now steps,
      row.taskId = taskId ∧ row.executorKind = step.executorKind := by
  obtain ⟨i, hi⟩ := List.mem_iff_getElem?.mp h
  exact ⟨_, List.mem_map.mpr ⟨(step, i), List.mem_zipIdx_iff_getElem?.mpr hi, rfl⟩, rfl, rfl⟩

theorem mem_insertedDeps {steps : List StepInput} {s p : Uuid} :
    (s, p) ∈ insertedDeps env db steps ↔ ⟨s, p⟩ ∈ dependencyRows env db steps := by
  simp only [insertedDeps, List.mem_map, Prod.mk.injEq]
  constructor
  · rintro ⟨⟨_, _⟩, hd, rfl, rfl⟩; exact hd
  · exact fun h => ⟨_, h, rfl, rfl⟩

theorem view_insertRows (task : Task) (runId : Uuid) (steps : List StepInput) (payload : Payload)
    (hs : task.status = .queued) (hc : task.cancelRequested = false) :
    view (logEvent env task.id "task.created" payload now (insertRows env task runId now steps db)) =
      apply (view db) (.insert task.id runId task.requiresApproval (insertedSteps env db steps)
        (insertedDeps env db steps)) := by
  have htask : taskCtl task = ⟨.queued, task.requiresApproval, false⟩ := by simp [taskCtl, hs, hc]
  rw [view_logEvent_some rfl, Control.apply]
  refine congrArg (State.addMark task.id .created) ?_
  simp only [view, insertRows, lookup_append, Option.map_or, lookup_stepRows, mem_insertedDeps,
    List.mem_append]
  congr 1
  · funext i
    by_cases h : task.id = i
    · simp [lookup, h, htask]
    · simp [lookup, h]
  · funext i
    by_cases h : runId = i
    · simp [lookup, h]
    · simp [lookup, h]

theorem insertTask_ok {a w ti o : String} {gated : Bool} {ss : List StepInput} {m : ApprovalMode}
    {taskId : Uuid} (h : insertTask env a w ti o gated ss m now db = .ok (taskId, db')) :
    ∃ task : Task, task.id = env.uuid db.tasks.length ∧ taskId = task.id ∧ task.accountId = a ∧
      task.requiresApproval = gated ∧ task.status = .queued ∧ task.cancelRequested = false ∧
      (∀ step ∈ orDefault ss, ∀ parent ∈ step.dependsOn, parent < (orDefault ss).length) ∧
      db' = logEvent env task.id "task.created" (.obj [("source", .str "api")]) now
        (insertRows env task (env.uuid db.taskRuns.length) now (orDefault ss) db) := by
  by_cases hp : ∃ step ∈ orDefault ss, ∃ parent ∈ step.dependsOn, (orDefault ss).length ≤ parent
  · simp [insertTask, hp] at h
  · simp only [insertTask, if_neg hp, Except.ok.injEq, Prod.mk.injEq] at h
    push Not at hp
    exact ⟨_, rfl, h.1.symm, rfl, rfl, rfl, rfl, hp, h.2.symm⟩

/-! ### The gate, decisions, cancellation and retry -/

theorem get_eq_ok {taskId : Uuid} {accountId : String} {task : Task}
    (h : Lifecycle.get taskId accountId db = .ok task) :
    task ∈ db.tasks ∧ task.id = taskId ∧ task.accountId = accountId := by
  unfold Lifecycle.get at h
  split at h
  · next t ht =>
    obtain rfl : t = task := by simpa using h
    have := List.find?_some ht
    exact ⟨List.mem_of_find?_eq_some ht, by simpa using this⟩
  · simp at h

theorem view_requestApprovalWrite (hk : Keys db) {task : Task} (ht : task ∈ db.tasks)
    (hs : task.status = .queued) {u : Unit}
    (h : requestApprovalWrite env task db = .ok (u, db')) :
    view db' = apply (view db) (.gate task.id) := by
  simp only [requestApprovalWrite, Except.ok.injEq, Prod.mk.injEq, true_and] at h
  subst h
  rw [view_logEvent_none rfl]
  refine view_updTasks _ (fun _ => rfl) fun t ht' => ?_
  by_cases hid : t.id = task.id
  · obtain rfl := hk.tasks.eq_of_key ht' ht hid
    simp [hs, taskCtl]
  · simp [hid]

theorem view_decideWrite {taskId : Uuid} {approved : Bool} {note source : String} {u : Unit}
    (h : decideWrite env taskId approved note source db = .ok (u, db')) :
    view db' = apply (view db) (if approved then .approve taskId else .deny taskId) := by
  simp only [decideWrite, Except.ok.injEq, Prod.mk.injEq, true_and] at h
  subst h
  cases approved
  · simp only [Bool.false_eq_true, if_false, Control.apply]
    rw [view_logEvent_some rfl, view_setOpenRuns, view_cancelQueuedSteps, view_updTask (fun x => { x with status := .cancelled, requiresApproval := true })
      (by intros; rfl) (by intros; rfl), view_setApproval]
  · simp only [if_true, Control.apply]
    rw [view_logEvent_some rfl, view_updTask (fun x => { x with status := .queued, requiresApproval := false })
      (by intros; rfl) (by intros; rfl), view_setApproval]

theorem countP_running_eq_zero {taskId : Uuid} :
    ((cancelQueuedSteps taskId db).taskSteps.countP fun s =>
      s.taskId = taskId ∧ s.status = .running) = 0 ↔
      ∀ s ∈ db.taskSteps, s.taskId = taskId → s.status ≠ .running := by
  simp only [cancelQueuedSteps, updSteps, List.countP_eq_zero, mem_updateWhere, decide_eq_true_eq,
    not_and, forall_exists_index, and_imp]
  constructor
  · intro h s hs ht hr
    exact h _ s hs (by simp [hr]) ht hr
  · rintro h _ s hs rfl ht
    split_ifs with hc
    · simp
    · exact h s hs (by simpa [hc] using ht)

theorem view_cancelWrite (hk : Keys db) {taskId : Uuid} {u : Unit}
    (h : cancelWrite env taskId db = .ok (u, db')) :
    ∃ idle, view db' = apply (view db) (.cancel taskId idle) ∧
      (idle = true ↔ ∀ s st, StepOf (view db) s taskId st → st.status ≠ .running) := by
  simp only [cancelWrite, Except.ok.injEq, Prod.mk.injEq, true_and] at h
  subst h
  have hidle : (∀ s ∈ db.taskSteps, s.taskId = taskId → s.status ≠ .running) ↔
      ∀ s st, StepOf (view db) s taskId st → st.status ≠ .running := by
    simp only [stepOf_iff hk]
    exact ⟨fun h i st ⟨s, hs, _, ht, he⟩ => he ▸ h s hs ht,
      fun h s hs ht => h s.id _ ⟨s, hs, rfl, ht, rfl⟩⟩
  have hflag : view (db.updTasks (fun t => t.id = taskId) fun t =>
      { t with status := .cancelling, cancelRequested := true, updatedAt := env.now }) =
      (view db).setTask taskId fun x => { x with status := .cancelling, cancelRequested := true } :=
    view_updTask _ (fun _ => rfl) fun _ => rfl
  rw [view_logEvent_some rfl]
  split_ifs with hr
  · refine ⟨true, ?_, iff_of_true rfl (hidle.mp (countP_running_eq_zero.mp hr))⟩
    simp only [Control.apply, if_true, view_setOpenRuns]
    rw [view_updTask (fun x => { x with status := .cancelled }) (by intros; rfl) (by intros; rfl),
      view_cancelQueuedSteps, hflag]
    refine congrArg (State.addMark taskId .cancelAsked) ?_
    exact congrArg (State.cancelQueued taskId) (setTask_setTask _ _)
  · refine ⟨false, ?_, iff_of_false (by simp) fun h =>
      hr (countP_running_eq_zero.mpr (hidle.mpr h))⟩
    simp only [Control.apply, Bool.false_eq_true, if_false]
    rw [view_cancelQueuedSteps, hflag]

theorem view_retryWrite (hk : Keys db) {task : Task} (ht : task ∈ db.tasks) {gated : Bool} {u : Unit}
    (h : retryWrite env task.id task.accountId gated db = .ok (u, db')) :
    view db' = apply (view db) (.retry task.id gated) := by
  simp only [retryWrite, Except.ok.injEq, Prod.mk.injEq, true_and] at h
  subst h
  have hstep : view (db.updSteps
      (fun s => s.taskId = task.id ∧ (s.status = .failed ∨ s.status = .cancelled)) fun s =>
        { s with status := .queued, leaseOwner := none, leaseExpiresAt := none, retryAt := none
                 lastError := none, attempts := 0 }) =
      (view db).mapStep fun _ s =>
        if s.taskId = task.id ∧ (s.status = .failed ∨ s.status = .cancelled)
        then { s with status := .queued, attempts := 0 } else s :=
    view_updSteps _ (fun _ => rfl) fun s _ => by
      by_cases hp : s.taskId = task.id ∧ (s.status = .failed ∨ s.status = .cancelled) <;>
        simp [hp, stepCtl]
  have hlast : ∀ x : TaskDb, view (if gated = true then
      logEvent env task.id "approval.requested"
        (.obj [("source", .str "retry")]) env.now x else x) = view x := fun x => by
    cases gated
    · rfl
    · exact view_logEvent_none rfl ..
  rw [hlast, view_logEvent_some rfl, Control.apply]
  refine congrArg (State.addMark task.id .retried) ?_
  rw [view_updTasks (fun i x => if i = task.id then
    { x with status := if gated then .waitingApproval else .queued
             requiresApproval := gated, cancelRequested := false } else x) (by intros; rfl) ?_,
    view_deleteApproval]
  · simp only [view_updDeadLetters, view_setOpenRuns, hstep]
    rfl
  · intro t ht'
    by_cases hid : t.id = task.id
    · obtain rfl := hk.tasks.eq_of_key ht' ht hid
      simp [taskCtl]
    · simp [hid]

/-! ### Recovery and start -/

def recoverHostedAct (c : State) (item : TaskStep) : Act :=
  if ∃ tk ∈ c.task item.taskId, tk.cancelRequested = true then .drop item.id item.taskId
  else .requeue item.id item.taskId

theorem view_recoverHosted (item : TaskStep) :
    view (recoverHosted env now db item) = apply (view db) (recoverHostedAct (view db) item) := by
  have hflag : (∃ tk ∈ (view db).task item.taskId, tk.cancelRequested = true) ↔
      ∃ t ∈ lookup Task.id item.taskId db.tasks, t.cancelRequested = true := by
    simp [view, taskCtl]
  unfold recoverHosted recoverHostedAct
  simp only [hflag]
  split_ifs with h
  · rw [view_logEvent_none rfl, view_setTaskStatus]
    refine congrArg (State.setTaskStatus item.taskId .cancelled) ?_
    split
    · rw [view_setRunStatus, view_releaseStep]
    · rw [view_releaseStep]
  · rw [view_logEvent_none rfl, view_requeueTask, view_releaseStep, Control.apply]

theorem keys_recoverHosted (item : TaskStep) : Keys (recoverHosted env now db item) ↔ Keys db := by
  unfold recoverHosted
  dsimp only
  split_ifs
  · rw [keys_logEvent, keys_setTaskStatus]
    split
    · rw [keys_setRunStatus, keys_releaseStep]
    · rw [keys_releaseStep]
  · simp

def recoverDesktopAct (item : Task × TaskStep) : Act :=
  if item.1.cancelRequested then .drop item.2.id item.2.taskId
  else if item.2.requiredCapability = some "local_file_read" then .requeue item.2.id item.2.taskId
  else .expire item.2.id item.2.taskId

theorem view_recoverDesktop (item : Task × TaskStep) :
    view (recoverDesktop env now db item) = apply (view db) (recoverDesktopAct item) := by
  obtain ⟨t, s⟩ := item
  unfold recoverDesktop recoverDesktopAct
  dsimp only
  split_ifs <;> rw [view_logEvent_none rfl, view_updLeases] <;> simp [Control.apply]

theorem keys_recoverDesktop (item : Task × TaskStep) :
    Keys (recoverDesktop env now db item) ↔ Keys db := by
  unfold recoverDesktop
  dsimp only
  split_ifs <;> simp

theorem view_startStep (taskId runId stepId : Uuid) (owner : Owner) (until_ : Time) (type : String)
    (payload : Payload) (htype : markOf type = some .started) :
    view (logEvent env taskId type payload now
      (startStep taskId runId stepId owner until_ now db)) =
      apply (view db) (.start stepId taskId) := by
  rw [view_logEvent_some htype, startStep, Control.apply, view_updStep (fun x => { x with status := .running, attempts := x.attempts + 1 })
    (by intros; rfl) (by intros; rfl), view_setRunStatus, view_setTaskStatus]

theorem view_autoApprove (hk : Keys db) {task : Task} (ht : task ∈ db.tasks) {accountId : String}
    (ha : task.accountId = accountId) (hr : task.requiresApproval = true) (env : Env) (now : Time)
    (auto : Bool) :
    view (autoApprove env now accountId auto db task) = apply (view db) (.approve task.id) := by
  unfold autoApprove
  rw [view_logEvent_some rfl, Control.apply]
  refine congrArg (State.addMark task.id .approved) ?_
  rw [view_updTasks (fun i x => if i = task.id then
    { x with status := .queued, requiresApproval := false } else x) (by intros; rfl) ?_,
    view_setApproval]
  · rfl
  · intro t ht'
    by_cases hid : t.id = task.id
    · obtain rfl := hk.tasks.eq_of_key ht' ht hid
      simp [taskCtl, ha, hr]
    · simp [hid]

/-! ### Completion and failure -/

theorem ownedStep_eq_some {stepId : Uuid} {accountId : String} {row : TaskStep}
    (h : ownedStep stepId accountId db = some row) :
    row ∈ db.taskSteps ∧ row.id = stepId ∧ ∃ t ∈ db.tasks, t.id = row.taskId ∧ t.accountId = accountId :=
  ⟨List.mem_of_find?_eq_some h, by simpa using List.find?_some h⟩

section AddResult
variable {taskId stepId : Uuid} {kind name : Option String} {result : String}

theorem view_addResult :
    view (addResult env taskId stepId kind name result now db) = view db := by
  unfold addResult
  split
  · rfl
  · rw [view_logEvent_none rfl, view_addArtifact]

theorem addResult_tasks : (addResult env taskId stepId kind name result now db).tasks = db.tasks := by
  unfold addResult
  split <;> rfl

theorem addResult_taskSteps :
    (addResult env taskId stepId kind name result now db).taskSteps = db.taskSteps := by
  unfold addResult
  split <;> rfl

end AddResult

theorem pending_eq_zero (hk : Keys db) {i r : Uuid} {f : TaskStep → TaskStep}
    (hf : ∀ s, (f s).status = .completed) :
    ((updateWhere (fun s => s.id = i ∧ s.status = .running) f db.taskSteps).countP fun s =>
      s.taskRunId = r ∧ s.status ≠ .completed) = 0 ↔
      ∀ j y, (view db).step j = some y → y.runId = r →
        y.status = .completed ∨ (j = i ∧ y.status = .running) := by
  simp only [List.countP_eq_zero, mem_updateWhere, view_step_iff hk, decide_eq_true_eq, not_and,
    not_not]
  constructor
  · rintro h j y ⟨s, hs, rfl, rfl⟩ hr
    by_cases hp : s.id = i ∧ s.status = .running
    · exact Or.inr hp
    · exact Or.inl (h s ⟨s, hs, if_neg hp⟩ hr)
  · rintro h _ ⟨s, hs, rfl⟩ hr
    by_cases hp : s.id = i ∧ s.status = .running
    · rw [if_pos hp]; exact hf s
    · rw [if_neg hp] at hr ⊢
      exact (h s.id _ ⟨s, hs, rfl, rfl⟩ hr).resolve_right hp

theorem view_completeStepWrite (hk : Keys db) {stepId : Uuid} {accountId result : String}
    {kind name : Option String} {row : TaskStep} (hrow : ownedStep stepId accountId db = some row)
    {u : Unit} (h : completeStepWrite env stepId accountId result kind name db = .ok (u, db')) :
    ∃ ending tk, view db' = apply (view db) (.complete stepId row.taskId ending) ∧
      (view db).task row.taskId = some tk ∧
      EndsWith (view db) stepId (stepCtl row) tk ending := by
  obtain ⟨hmem, rfl, t, ht, htid, -⟩ := ownedStep_eq_some hrow
  have htask : lookup Task.id row.taskId db.tasks = some t := htid ▸ lookup_key hk.tasks ht
  simp only [completeStepWrite, hrow] at h
  -- the step is completed and recorded, before the task is looked at
  generalize hx : addResult env row.taskId row.id kind name result env.now _ = x at h
  have hview : view x = ((view db).setStep row.id fun y =>
      if y.status = .running then { y with status := .completed } else y).addMark row.taskId
        .stepCompleted := by
    rw [← hx, view_addResult, view_logEvent_some rfl]
    refine congrArg (State.addMark row.taskId .stepCompleted) ?_
    refine view_updSteps _ (fun _ => rfl) fun s _ => ?_
    by_cases hid : s.id = row.id
    · by_cases hr : s.status = .running <;> simp [hid, hr, stepCtl]
    · simp [hid]
  have htasks : lookup Task.id row.taskId x.tasks = some t := by
    rw [← hx, addResult_tasks]; exact htask
  have hsteps : x.taskSteps = updateWhere (fun s => s.id = row.id ∧ s.status = .running) (fun s =>
      { s with status := .completed, leaseOwner := none, leaseExpiresAt := none, lastError := none
               retryAt := none }) db.taskSteps := by
    rw [← hx, addResult_taskSteps]; rfl
  have hpending := pending_eq_zero hk (i := row.id) (r := row.taskRunId) (f := fun s =>
      { s with status := .completed, leaseOwner := none, leaseExpiresAt := none, lastError := none
               retryAt := none }) fun _ => rfl
  rw [← hsteps] at hpending
  have htk : (view db).task row.taskId = some (taskCtl t) := htid ▸ view_task_of_mem hk ht
  simp only [htasks, Option.mem_some_iff, exists_eq_left'] at h
  split_ifs at h with hc hp
  · refine ⟨.cancelled, taskCtl t, ?_, htk, hc⟩
    simp only [Except.ok.injEq, Prod.mk.injEq, true_and] at h
    rw [← h, view_logEvent_none rfl, view_setTaskStatus, view_setRunStatus, hview, Control.apply]
  · refine ⟨.last, taskCtl t, ?_, htk, by simpa [taskCtl] using hc, hpending.mp hp⟩
    simp only [Except.ok.injEq, Prod.mk.injEq, true_and] at h
    rw [← h, view_logEvent_some rfl, view_updTask (fun y => { y with status := .completed })
      (by intros; rfl) (by intros; rfl), view_setRunStatus, hview]
    rfl
  · refine ⟨.pending, taskCtl t, ?_, htk, by simpa [taskCtl] using hc, ?_⟩
    · simp only [Except.ok.injEq, Prod.mk.injEq, true_and] at h
      rw [← h, hview, Control.apply]
    · rw [hpending] at hp
      push Not at hp
      obtain ⟨j, y, hj, hr, hy, hn⟩ := hp
      exact ⟨j, y, hj, hr, hy, fun h => hn h.1 h.2⟩

theorem view_failStepWrite {stepId : Uuid} {accountId error : String} {delay : ℤ} {retryable : Bool}
    {row : TaskStep} (hrow : ownedStep stepId accountId db = some row) {o : Outcome}
    (h : failStepWrite env stepId accountId error delay retryable db = .ok (o, db')) :
    (o = .retrying ∧ Retries retryable row ∧
      view db' = apply (view db) (.failRetry stepId row.taskId)) ∨
    (o = .failed ∧ ¬ Retries retryable row ∧
      view db' = apply (view db) (.failFinal stepId row.taskId)) := by
  simp only [failStepWrite, hrow] at h
  split_ifs at h with hr
  · simp only [Except.ok.injEq, Prod.mk.injEq] at h
    obtain ⟨rfl, rfl⟩ := h
    refine Or.inl ⟨rfl, hr, ?_⟩
    rw [view_logEvent_none rfl, view_setTaskStatus, Control.apply, view_updStep (fun x => { x with status := .queued }) (by intros; rfl) (by intros; rfl)]
    rfl
  · simp only [Except.ok.injEq, Prod.mk.injEq] at h
    obtain ⟨rfl, rfl⟩ := h
    refine Or.inr ⟨rfl, hr, ?_⟩
    rw [view_logEvent_none rfl]
    simp [Control.apply]

end Smara.TaskStore.Effects
