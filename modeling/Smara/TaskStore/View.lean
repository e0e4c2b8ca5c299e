import Smara.TaskStore.Control
import Smara.TaskStore.Report

/-! # The control state of the tables

`view` reads the control state out of the tables: rows are found by their ids, and the events of a
task give its history. Each statement of the store acts on the view as an update of the control
machine (`view_updTask`, `view_updStep`, `view_logEvent`, …), and in tables that satisfy their
constraints a row is found exactly if it is there (`view_task_iff`, `view_step_iff`). -/

namespace Smara.TaskStore.View

open Lib.Table Lib.Transaction TaskStore.Schema TaskStore.Schema.TaskDb
open TaskStore.Lifecycle TaskStore.Claim TaskStore.Control

def taskCtl (t : Task) : TaskCtl := ⟨t.status, t.requiresApproval, t.cancelRequested⟩

def stepCtl (s : TaskStep) : StepCtl :=
  ⟨s.taskId, s.taskRunId, s.status, s.attempts, s.maxAttempts, s.executorKind⟩

/-- What the type of an event records. -/
def markOf : String → Option Mark
  | "task.created" => some .created
  | "approval.approved" => some .approved
  | "approval.denied" => some .denied
  | "task.retry_requested" => some .retried
  | "task.started" => some .started
  | "executor.step_claimed" => some .started
  | "task.cancel_requested" => some .cancelAsked
  | "step.completed" => some .stepCompleted
  | "task.completed" => some .completed
  | _ => none

def history (events : List TaskEvent) (taskId : Uuid) : List Mark :=
  (events.filter fun e => e.taskId = taskId).filterMap fun e => markOf e.type

/-- **The control state of the tables.** -/
def view (db : TaskDb) : State where
  task i := (lookup Task.id i db.tasks).map taskCtl
  step i := (lookup TaskStep.id i db.taskSteps).map stepCtl
  run i := (lookup TaskRun.id i db.taskRuns).map TaskRun.taskId
  approval i := (lookup Approval.taskId i db.approvals).map Approval.status
  dep s p := ⟨s, p⟩ ∈ db.taskStepDependencies
  log i := history db.taskEvents i

variable {db : TaskDb}

/-! ### Rows -/

structure Keys (db : TaskDb) : Prop where
  tasks : Keyed Task.id db.tasks
  steps : Keyed TaskStep.id db.taskSteps

theorem keys_of_constraints (h : db.Constraints) : Keys db := ⟨h.tasks, h.taskSteps⟩

theorem view_task_of_mem (h : Keys db) {t : Task} (ht : t ∈ db.tasks) :
    (view db).task t.id = some (taskCtl t) := by
  simp [view, lookup_key h.tasks ht]

theorem view_step_of_mem (h : Keys db) {s : TaskStep} (hs : s ∈ db.taskSteps) :
    (view db).step s.id = some (stepCtl s) := by
  simp [view, lookup_key h.steps hs]

theorem view_task_iff {i : Uuid} {tk : TaskCtl} (h : Keys db) :
    (view db).task i = some tk ↔ ∃ t ∈ db.tasks, t.id = i ∧ taskCtl t = tk := by
  simp [view, Option.map_eq_some_iff, lookup_eq_some_iff h.tasks, and_assoc]

theorem view_step_iff {i : Uuid} {st : StepCtl} (h : Keys db) :
    (view db).step i = some st ↔ ∃ s ∈ db.taskSteps, s.id = i ∧ stepCtl s = st := by
  simp [view, Option.map_eq_some_iff, lookup_eq_some_iff h.steps, and_assoc]

theorem stepOf_of_mem (h : Keys db) {s : TaskStep} (hs : s ∈ db.taskSteps) :
    StepOf (view db) s.id s.taskId (stepCtl s) := ⟨view_step_of_mem h hs, rfl⟩

theorem stepOf_iff (h : Keys db) {i t : Uuid} {st : StepCtl} :
    StepOf (view db) i t st ↔ ∃ s ∈ db.taskSteps, s.id = i ∧ s.taskId = t ∧ stepCtl s = st := by
  rw [StepOf, view_step_iff h]
  constructor
  · rintro ⟨⟨s, hs, hi, rfl⟩, ht⟩; exact ⟨s, hs, hi, ht, rfl⟩
  · rintro ⟨s, hs, hi, ht, rfl⟩; exact ⟨⟨s, hs, hi, rfl⟩, ht⟩

theorem keys_updTasks {p : Task → Prop} [DecidablePred p] {f : Task → Task}
    (hid : ∀ t, (f t).id = t.id) : Keys (db.updTasks p f) ↔ Keys db :=
  ⟨fun h => ⟨(keyed_updateWhere fun t _ => hid t).mp h.1, h.2⟩,
    fun h => ⟨(keyed_updateWhere fun t _ => hid t).mpr h.1, h.2⟩⟩

theorem keys_updSteps {p : TaskStep → Prop} [DecidablePred p] {f : TaskStep → TaskStep}
    (hid : ∀ s, (f s).id = s.id) : Keys (db.updSteps p f) ↔ Keys db :=
  ⟨fun h => ⟨h.1, (keyed_updateWhere fun s _ => hid s).mp h.2⟩,
    fun h => ⟨h.1, (keyed_updateWhere fun s _ => hid s).mpr h.2⟩⟩

@[simp] theorem keys_releaseStep (s : Uuid) (status : StepStatus)
    (f : Option String → Option String) : Keys (releaseStep s status f db) ↔ Keys db :=
  keys_updSteps (by intros; rfl)

@[simp] theorem keys_setTaskStatus (t : Uuid) (status : TaskStatus) (now : Time) :
    Keys (setTaskStatus t status now db) ↔ Keys db := keys_updTasks (by intros; rfl)

@[simp] theorem keys_requeueTask (t : Uuid) (now : Time) :
    Keys (requeueTask t now db) ↔ Keys db := keys_updTasks (by intros; rfl)

@[simp] theorem keys_setRunStatus (r : Uuid) (status : RunStatus) :
    Keys (setRunStatus r status db) ↔ Keys db := ⟨fun h => ⟨h.1, h.2⟩, fun h => ⟨h.1, h.2⟩⟩

@[simp] theorem keys_updLeases (p : ExecutorLease → Prop) [DecidablePred p]
    (f : ExecutorLease → ExecutorLease) : Keys (db.updLeases p f) ↔ Keys db :=
  ⟨fun h => ⟨h.1, h.2⟩, fun h => ⟨h.1, h.2⟩⟩

@[simp] theorem keys_addDeadLetter (env : Env) (t s : Uuid) (a e : String) (n : ℕ) (now : Time) :
    Keys (db.addDeadLetter env t s a e n now) ↔ Keys db :=
  ⟨fun h => ⟨h.1, h.2⟩, fun h => ⟨h.1, h.2⟩⟩

@[simp] theorem keys_logEvent (env : Env) (t : Uuid) (type : String) (payload : Payload)
    (now : Time) : Keys (logEvent env t type payload now db) ↔ Keys db :=
  ⟨fun h => ⟨h.1, h.2⟩, fun h => ⟨h.1, h.2⟩⟩

@[simp] theorem keys_setApproval (t : Uuid) (status : ApprovalStatus) (note : String) (now : Time) :
    Keys (db.setApproval t status note now) ↔ Keys db :=
  ⟨fun h => ⟨h.1, h.2⟩, fun h => ⟨h.1, h.2⟩⟩

/-! ### Statements -/

theorem view_updTasks {p : Task → Prop} [DecidablePred p] {f : Task → Task}
    (g : Uuid → TaskCtl → TaskCtl) (hid : ∀ t, (f t).id = t.id)
    (hg : ∀ t ∈ db.tasks, taskCtl (if p t then f t else t) = g t.id (taskCtl t)) :
    view (db.updTasks p f) = (view db).mapTask g := by
  have hlk : ∀ i, (lookup Task.id i (updateWhere p f db.tasks)).map taskCtl =
      ((lookup Task.id i db.tasks).map taskCtl).map (g i) := fun i => by
    rw [lookup_updateWhere fun t _ => hid t, Option.map_map, Option.map_map]
    cases hl : lookup Task.id i db.tasks with
    | none => rfl
    | some t =>
      have := hg t (mem_of_lookup hl)
      rw [key_of_lookup hl] at this
      simp [this]
  simp only [view, updTasks, State.mapTask, hlk]

theorem view_updSteps {p : TaskStep → Prop} [DecidablePred p] {f : TaskStep → TaskStep}
    (g : Uuid → StepCtl → StepCtl) (hid : ∀ s, (f s).id = s.id)
    (hg : ∀ s ∈ db.taskSteps, stepCtl (if p s then f s else s) = g s.id (stepCtl s)) :
    view (db.updSteps p f) = (view db).mapStep g := by
  have hlk : ∀ i, (lookup TaskStep.id i (updateWhere p f db.taskSteps)).map stepCtl =
      ((lookup TaskStep.id i db.taskSteps).map stepCtl).map (g i) := fun i => by
    rw [lookup_updateWhere fun s _ => hid s, Option.map_map, Option.map_map]
    cases hl : lookup TaskStep.id i db.taskSteps with
    | none => rfl
    | some s =>
      have := hg s (mem_of_lookup hl)
      rw [key_of_lookup hl] at this
      simp [this]
  simp only [view, updSteps, State.mapStep, hlk]

theorem view_updTask {i : Uuid} {f : Task → Task} (g : TaskCtl → TaskCtl)
    (hid : ∀ t, (f t).id = t.id) (hg : ∀ t, taskCtl (f t) = g (taskCtl t)) :
    view (db.updTasks (fun t => t.id = i) f) = (view db).setTask i g :=
  view_updTasks _ hid fun t _ => by
    by_cases h : t.id = i
    · simp [h, hg]
    · simp [h]

theorem view_updStep {i : Uuid} {f : TaskStep → TaskStep} (g : StepCtl → StepCtl)
    (hid : ∀ s, (f s).id = s.id) (hg : ∀ s, stepCtl (f s) = g (stepCtl s)) :
    view (db.updSteps (fun s => s.id = i) f) = (view db).setStep i g :=
  view_updSteps _ hid fun s _ => by
    by_cases h : s.id = i
    · simp [h, hg]
    · simp [h]

theorem view_updRuns {p : TaskRun → Prop} [DecidablePred p] {f : TaskRun → TaskRun}
    (hid : ∀ r, (f r).id = r.id) (ht : ∀ r, (f r).taskId = r.taskId) :
    view (db.updRuns p f) = view db := by
  have hlk : ∀ i, (lookup TaskRun.id i (updateWhere p f db.taskRuns)).map TaskRun.taskId =
      (lookup TaskRun.id i db.taskRuns).map TaskRun.taskId := fun i =>
    lookup_updateWhere_map (fun r _ => hid r) fun r _ => ht r
  simp only [view, updRuns, hlk]

@[simp] theorem view_updLeases (p : ExecutorLease → Prop) [DecidablePred p]
    (f : ExecutorLease → ExecutorLease) : view (db.updLeases p f) = view db := rfl

@[simp] theorem view_updDeadLetters (p : DeadLetter → Prop) [DecidablePred p]
    (f : DeadLetter → DeadLetter) : view (db.updDeadLetters p f) = view db := rfl

@[simp] theorem view_addDeadLetter (env : Env) (t s : Uuid) (a e : String) (n : ℕ) (now : Time) :
    view (db.addDeadLetter env t s a e n now) = view db := rfl

@[simp] theorem view_addArtifact (env : Env) (t : Uuid) (k n c : String) (now : Time) :
    view (Report.addArtifact env t k n c now db) = view db := rfl

@[simp] theorem view_closeLease (s e : Uuid) (now : Time) :
    view (Report.closeLease s e now db) = view db := rfl

@[simp] theorem view_setRunStatus (r : Uuid) (status : RunStatus) :
    view (setRunStatus r status db) = view db := view_updRuns (fun _ => rfl) fun _ => rfl

@[simp] theorem view_setOpenRuns (t : Uuid) (status : RunStatus) :
    view (setOpenRuns t status db) = view db := view_updRuns (fun _ => rfl) fun _ => rfl

@[simp] theorem view_cancelQueuedSteps (t : Uuid) :
    view (cancelQueuedSteps t db) = (view db).cancelQueued t :=
  view_updSteps _ (fun _ => rfl) fun s _ => by
    by_cases h : s.taskId = t ∧ s.status = .queued <;> simp [h, stepCtl]

@[simp] theorem view_setTaskStatus (t : Uuid) (status : TaskStatus) (now : Time) :
    view (setTaskStatus t status now db) = (view db).setTaskStatus t status :=
  view_updTask _ (fun _ => rfl) fun _ => rfl

@[simp] theorem view_releaseStep (s : Uuid) (status : StepStatus) (f : Option String → Option String) :
    view (releaseStep s status f db) = (view db).setStepStatus s status :=
  view_updStep _ (fun _ => rfl) fun _ => rfl

@[simp] theorem view_requeueTask (t : Uuid) (now : Time) :
    view (requeueTask t now db) = (view db).setTask t fun x =>
      if x.status = .running then { x with status := .queued } else x :=
  view_updTasks _ (fun _ => rfl) fun x _ => by
    by_cases h : x.id = t
    · by_cases h' : x.status = .running <;> simp [h, h', taskCtl]
    · simp [h]

theorem history_append (es : List TaskEvent) (e : TaskEvent) (i : Uuid) :
    history (es ++ [e]) i =
      if e.taskId = i then history es i ++ (markOf e.type).toList else history es i := by
  by_cases h : e.taskId = i
  · cases hm : markOf e.type <;> simp [history, List.filter_append, h, hm]
  · simp [history, List.filter_append, h]

theorem view_logEvent (env : Env) (t : Uuid) (type : String) (payload : Payload) (now : Time) :
    view (logEvent env t type payload now db) =
      match markOf type with
      | some m => (view db).addMark t m
      | none => view db := by
  have hlog : (fun i => history (logEvent env t type payload now db).taskEvents i) =
      Function.update (fun i => history db.taskEvents i) t
        (history db.taskEvents t ++ (markOf type).toList) := by
    funext i
    by_cases h : t = i
    · subst h; simp [logEvent, history_append]
    · simp [logEvent, history_append, h, Function.update_of_ne (Ne.symm h)]
  have : view (logEvent env t type payload now db) =
      { view db with log := fun i => history (logEvent env t type payload now db).taskEvents i } :=
    rfl
  rw [this, hlog]
  cases hm : markOf type with
  | some m => rfl
  | none => simp [view]

theorem view_logEvent_none {type : String} (h : markOf type = none) (env : Env) (t : Uuid)
    (payload : Payload) (now : Time) : view (logEvent env t type payload now db) = view db := by
  rw [view_logEvent, h]

theorem view_logEvent_some {type : String} {m : Mark} (h : markOf type = some m) (env : Env)
    (t : Uuid) (payload : Payload) (now : Time) :
    view (logEvent env t type payload now db) = (view db).addMark t m := by
  rw [view_logEvent, h]

theorem view_setApproval (t : Uuid) (status : ApprovalStatus) (note : String) (now : Time) :
    view (db.setApproval t status note now) = (view db).setApproval t (some status) := by
  have hlk : (fun i => (lookup Approval.taskId i
      (db.setApproval t status note now).approvals).map Approval.status) =
      Function.update (view db).approval t (some status) := by
    funext i
    simp only [setApproval, upsert]
    split_ifs with h
    · rw [lookup_updateWhere (by intros; rfl)]
      by_cases hi : i = t
      · subst hi
        obtain ⟨a, ha, hk⟩ := h
        cases hl : lookup Approval.taskId i db.approvals with
        | none => exact absurd hk (lookup_eq_none.mp hl a ha)
        | some b => simp [key_of_lookup hl]
      · rw [Function.update_of_ne hi]
        cases hl : lookup Approval.taskId i db.approvals with
        | none => simp [view, hl]
        | some b => simp [view, hl, key_of_lookup hl, hi]
    · rw [lookup_append]
      by_cases hi : i = t
      · subst hi
        have : lookup Approval.taskId i db.approvals = none :=
          lookup_eq_none.mpr fun a ha hk => h ⟨a, ha, hk⟩
        rw [this]
        simp [lookup]
      · have : lookup Approval.taskId i [(⟨t, status, note, now⟩ : Approval)] = none :=
          lookup_eq_none.mpr fun a ha => by simp only [List.mem_singleton] at ha; simp [ha, Ne.symm hi]
        rw [Function.update_of_ne hi, this, Option.or_none]; rfl
  have : view (db.setApproval t status note now) =
      { view db with approval := fun i => (lookup Approval.taskId i
          (db.setApproval t status note now).approvals).map Approval.status } := rfl
  rw [this, hlk]; rfl

theorem view_deleteApproval (t : Uuid) :
    view { db with approvals := deleteWhere (fun a => a.taskId = t) db.approvals } =
      (view db).setApproval t none := by
  have hlk : (fun i => (lookup Approval.taskId i
      (deleteWhere (fun a => a.taskId = t) db.approvals)).map Approval.status) =
      Function.update (view db).approval t none := by
    funext i
    by_cases hi : i = t
    · subst hi
      have : lookup Approval.taskId i (deleteWhere (fun a => a.taskId = i) db.approvals) = none :=
        lookup_eq_none.mpr fun a ha => (mem_deleteWhere.mp ha).2
      simp [this]
    · rw [Function.update_of_ne hi]
      simp only [view, lookup, deleteWhere, List.find?_filter]
      congr 2
      funext a
      by_cases ha : a.taskId = i
      · simp [ha, hi]
      · simp [ha]
  have : view { db with approvals := deleteWhere (fun a => a.taskId = t) db.approvals } =
      { view db with approval := fun i => (lookup Approval.taskId i
          (deleteWhere (fun a => a.taskId = t) db.approvals)).map Approval.status } := rfl
  rw [this, hlk]; rfl

end Smara.TaskStore.View
