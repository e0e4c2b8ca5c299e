import Mathlib.Data.List.Dedup
import Smara.TaskStore.Schema

/-! # Creating, deciding, cancelling and retrying tasks

The calls of `TaskStore` made by people and by planning agents. A call that reads and writes in
separate transactions is given in its parts (`…Guard` the check on the task read, `…Write` the
writing transaction) and as their sequence. -/

namespace Smara.TaskStore.Lifecycle

open Lib.Table Lib.Transaction TaskStore.Schema TaskStore.Schema.TaskDb

/-! ### Creation -/

/-- A step of `create`. The callers pass positions, which are never negative. -/
structure StepInput where
  name : String
  dependsOn : List ℕ := []
  requiredCapability : Option String := none
  executorKind : ExecutorKind := .hosted
  executorPayload : ExecutorPayload := ⟨"{}", none⟩
  deriving DecidableEq

/-- `steps or [{"name": "agent.execute", "depends_on": []}]`. -/
def orDefault (steps : List StepInput) : List StepInput :=
  if steps = [] then [{ name := "agent.execute" }] else steps

def stepIdAt (env : Env) (db : TaskDb) (i : ℕ) : Uuid := env.uuid (db.taskSteps.length + i)

def stepRows (env : Env) (db : TaskDb) (taskId runId : Uuid) (now : Time)
    (steps : List StepInput) : List TaskStep :=
  steps.zipIdx.map fun (step, i) =>
    { id := stepIdAt env db i, taskId := taskId, taskRunId := runId, ordinal := i + 1
      name := step.name, status := .queued, idempotencyKey := (taskId, i + 1)
      leaseOwner := none, leaseExpiresAt := none, createdAt := now, attempts := 0, maxAttempts := 3
      retryAt := none, lastError := none, requiredCapability := step.requiredCapability
      executorKind := step.executorKind, executorPayload := step.executorPayload }

def dependencyRows (env : Env) (db : TaskDb) (steps : List StepInput) : List Dependency :=
  steps.zipIdx.flatMap fun (step, i) =>
    step.dependsOn.map fun parent => ⟨stepIdAt env db i, stepIdAt env db parent⟩

def insertRows (env : Env) (task : Task) (runId : Uuid) (now : Time) (steps : List StepInput)
    (db : TaskDb) : TaskDb :=
  { db with
    tasks := db.tasks ++ [task]
    taskRuns := db.taskRuns ++ [⟨runId, task.id, 1, .queued, now⟩]
    taskSteps := db.taskSteps ++ stepRows env db task.id runId now steps
    taskStepDependencies := db.taskStepDependencies ++ dependencyRows env db steps }

/-- `_insert_task`. The type of the mode leaves no room for the error `Unknown approval mode.` -/
def insertTask (env : Env) (accountId workspaceId title objective : String)
    (requiresApproval : Bool) (steps : List StepInput) (approvalMode : ApprovalMode) (now : Time)
    (db : TaskDb) : Except Err (Uuid × TaskDb) :=
  let taskId := env.uuid db.tasks.length
  let runId := env.uuid db.taskRuns.length
  let steps := orDefault steps
  let approvalMode := if ∃ step ∈ steps, step.executorKind = .desktop then .desktop else approvalMode
  if ∃ step ∈ steps, ∃ parent ∈ step.dependsOn, steps.length ≤ parent then .error .indexError
  else
    let task : Task := {
      id := taskId, accountId := accountId, workspaceId := workspaceId, title := title
      objective := objective, status := .queued, requiresApproval := requiresApproval
      approvalMode := approvalMode, createdAt := now, updatedAt := now
      cancelRequested := false, resultSummary := none }
    .ok (taskId, logEvent env taskId "task.created" (.obj [("source", .str "api")]) now
      (insertRows env task runId now steps db))

def get (taskId : Uuid) (accountId : String) (db : TaskDb) : Except Err Task :=
  match db.tasks.find? fun t => t.id = taskId ∧ t.accountId = accountId with
  | some task => .ok task
  | none => .error (.keyErrorId taskId)

def create (env : Env) (accountId workspaceId title objective : String) (requiresApproval : Bool)
    (steps : List StepInput) (approvalMode : ApprovalMode) : TaskDb → Except Err Task × TaskDb :=
  andThen (transaction (insertTask env accountId workspaceId title objective requiresApproval steps
    approvalMode env.now)) fun taskId => query (get taskId accountId)

/-- The steps of a research task, each after the one before. -/
def researchSteps (sources : List String) : List StepInput :=
  let names := ["research.fetch_sources", "research.verify_evidence", "research.write_report"]
  (if sources = [] then "research.discover_sources" :: names else names).zipIdx.map fun (name, i) =>
    { name := name, dependsOn := if i = 0 then [] else [i - 1] }

/-- The transaction of `create_research`, on sources in canonical form without duplicates. -/
def createResearchWrite (env : Env) (accountId workspaceId title question : String)
    (sources : List String) (db : TaskDb) : Except Err (Uuid × TaskDb) :=
  let now := env.now
  let taskId := env.uuid db.tasks.length
  let task : Task := {
    id := taskId, accountId := accountId, workspaceId := workspaceId, title := title
    objective := question, status := .queued, requiresApproval := false, approvalMode := .hosted
    createdAt := now, updatedAt := now, cancelRequested := false, resultSummary := none }
  let db := insertRows env task (env.uuid db.taskRuns.length) now (researchSteps sources) db
  let db := { db with
    researchEvidence := db.researchEvidence ++ sources.zipIdx.map fun (source, i) =>
      ⟨env.uuid (db.researchEvidence.length + i), taskId, source, none, "pending", now⟩ }
  let db := logEvent env taskId "task.created" (.obj [("source", .str "research_api")]) now db
  .ok (taskId, logEvent env taskId "research.planned" (.obj [("source_count", .num sources.length)])
    now db)

/-- `create_research`. The canonical form of a URL is a parameter. -/
def createResearch (env : Env) (canonical : String → String)
    (accountId workspaceId title question : String) (sources : List String) :
    TaskDb → Except Err Task × TaskDb :=
  -- the first of equal sources is kept
  let sources := ((sources.map canonical).filter (· ≠ "")).reverse.dedup.reverse
  andThen (transaction (createResearchWrite env accountId workspaceId title question sources))
    fun taskId => query (get taskId accountId)

/-! ### The approval gate -/

/-- The write of `request_approval`; the source of the event is that of the task read before. -/
def requestApprovalWrite (env : Env) (task : Task) (db : TaskDb) : Except Err (Unit × TaskDb) :=
  let now := env.now
  let db := db.updTasks
    (fun t => t.id = task.id ∧ t.accountId = task.accountId ∧ t.status = .queued)
    fun t => { t with status := .waitingApproval, updatedAt := now }
  let source := if task.approvalMode = .desktop then "desktop" else "agent"
  .ok ((), logEvent env task.id "approval.requested" (.obj [("source", .str source)]) now db)

def requestApproval (env : Env) (taskId : Uuid) (accountId : String) :
    TaskDb → Except Err Task × TaskDb :=
  andThen (query (get taskId accountId)) fun task =>
    if !task.requiresApproval then query fun _ => .error (.valueError "Task does not require approval.")
    else if task.status = .queued then
      andThen (transaction (requestApprovalWrite env task)) fun _ =>
        query fun _ => .ok { task with status := .waitingApproval }
    else query fun _ => .ok task

/-- The check of `decide` on the task it has read. -/
def decideGuard (task : Task) : Except Err Unit :=
  if task.requiresApproval ∧ (task.status = .queued ∨ task.status = .waitingApproval) then .ok ()
  else .error (.valueError "Task is not awaiting approval.")

def cancelQueuedSteps (taskId : Uuid) (db : TaskDb) : TaskDb :=
  db.updSteps (fun s => s.taskId = taskId ∧ s.status = .queued) fun s =>
    { s with status := .cancelled }

def setOpenRuns (taskId : Uuid) (status : RunStatus) (db : TaskDb) : TaskDb :=
  db.updRuns (fun r => r.taskId = taskId ∧ r.status ≠ .completed) fun r => { r with status := status }

def decideWrite (env : Env) (taskId : Uuid) (approved : Bool) (note source : String) (db : TaskDb) :
    Except Err (Unit × TaskDb) :=
  let now := env.now
  let db := db.setApproval taskId (if approved then .approved else .denied) note now
  let db := db.updTasks (fun t => t.id = taskId) fun t =>
    { t with status := if approved then .queued else .cancelled
             requiresApproval := !approved, updatedAt := now }
  let db := if approved then db else setOpenRuns taskId .cancelled (cancelQueuedSteps taskId db)
  .ok ((), logEvent env taskId (if approved then "approval.approved" else "approval.denied")
    (.obj [("source", .str source)]) now db)

def decide (env : Env) (taskId : Uuid) (accountId : String) (approved : Bool) (note source : String) :
    TaskDb → Except Err Task × TaskDb :=
  andThen (query fun db => do decideGuard (← get taskId accountId db)) fun _ =>
    andThen (transaction (decideWrite env taskId approved note source)) fun _ =>
      query (get taskId accountId)

def executor (executorId : Uuid) (token : String) (db : TaskDb) : Except Err Executor :=
  match db.desktopExecutors.find? fun e =>
    e.id = executorId ∧ e.tokenHash = .sha256 token ∧ e.status = .active with
  | some e => .ok e
  | none => .error (.keyError "executor")

/-- The checks of `decide_for_executor`; returns the account of the executor. -/
def decideForExecutorGuard (executorId : Uuid) (token : String) (taskId : Uuid) (db : TaskDb) :
    Except Err String := do
  let executor ← executor executorId token db
  let task ← get taskId executor.accountId db
  if task.approvalMode ≠ .desktop then
    throw (.valueError "Only Desktop-owned tasks can be decided on this device.")
  let steps := db.taskSteps.filter fun s => s.taskId = taskId
  if steps = [] ∨ ∃ s ∈ steps, s.executorKind ≠ .desktop then
    throw (.valueError "This task is not exclusively assigned to the paired Desktop.")
  if ∃ s ∈ steps, ∃ c ∈ s.requiredCapability, c ≠ "" ∧ c ∉ executor.capabilities then
    throw (.valueError "This Desktop does not have the capability required for the task.")
  return executor.accountId

/-- `text[:n]`. -/
def clip (n : ℕ) (text : String) : String := String.ofList (text.toList.take n)

def decideForExecutor (env : Env) (executorId : Uuid) (token : String) (taskId : Uuid)
    (approved : Bool) (note : String) : TaskDb → Except Err Task × TaskDb :=
  andThen (query (decideForExecutorGuard executorId token taskId)) fun accountId =>
    decide env taskId accountId approved
      (clip 500 (if note = "" then "Decided on paired Desktop" else note)) "desktop_user"

/-! ### Cancellation -/

/-- `status in {"completed", "failed", "cancelled"}`. -/
def Terminal (status : TaskStatus) : Prop :=
  status = .completed ∨ status = .failed ∨ status = .cancelled

instance (status : TaskStatus) : Decidable (Terminal status) := by unfold Terminal; infer_instance

def cancelWrite (env : Env) (taskId : Uuid) (db : TaskDb) : Except Err (Unit × TaskDb) :=
  let now := env.now
  let db := db.updTasks (fun t => t.id = taskId) fun t =>
    { t with status := .cancelling, cancelRequested := true, updatedAt := now }
  let db := cancelQueuedSteps taskId db
  let running := db.taskSteps.countP fun s => s.taskId = taskId ∧ s.status = .running
  let db := if running = 0 then
      setOpenRuns taskId .cancelled (db.updTasks (fun t => t.id = taskId) fun t =>
        { t with status := .cancelled, updatedAt := now })
    else db
  .ok ((), logEvent env taskId "task.cancel_requested" (.obj [("source", .str "user")]) now db)

def cancel (env : Env) (taskId : Uuid) (accountId : String) : TaskDb → Except Err Task × TaskDb :=
  andThen (query (get taskId accountId)) fun task =>
    if Terminal task.status then query fun _ => .ok task
    else andThen (transaction (cancelWrite env taskId)) fun _ => query (get taskId accountId)

/-! ### Retry -/

/-- The checks of `retry_task`; returns whether the task must be approved again. -/
def retryGuard (taskId : Uuid) (accountId : String) (db : TaskDb) : Except Err Bool := do
  let task ← get taskId accountId db
  if task.status ≠ .failed then throw (.valueError "Only failed tasks can be retried.")
  let steps := db.taskSteps.filter fun s => s.taskId = taskId
  if ¬ ∃ s ∈ steps, s.status = .failed then
    throw (.valueError "The task has no failed step to retry.")
  return task.requiresApproval ∨ ∃ s ∈ steps, s.executorKind = .desktop ∨ s.executorKind = .sandbox

def retryWrite (env : Env) (taskId : Uuid) (accountId : String) (requiresApproval : Bool)
    (db : TaskDb) : Except Err (Unit × TaskDb) :=
  let now := env.now
  let db := db.updSteps
    (fun s => s.taskId = taskId ∧ (s.status = .failed ∨ s.status = .cancelled)) fun s =>
    { s with status := .queued, leaseOwner := none, leaseExpiresAt := none, retryAt := none
             lastError := none, attempts := 0 }
  let db := setOpenRuns taskId .queued db
  let db := db.updDeadLetters (fun d => d.taskId = taskId ∧ d.resolvedAt = none) fun d =>
    { d with resolvedAt := some now }
  let db := { db with approvals := deleteWhere (fun a => a.taskId = taskId) db.approvals }
  let db := db.updTasks (fun t => t.id = taskId ∧ t.accountId = accountId) fun t =>
    { t with status := if requiresApproval then .waitingApproval else .queued
             requiresApproval := requiresApproval, cancelRequested := false, resultSummary := none
             updatedAt := now }
  let db := logEvent env taskId "task.retry_requested"
    (.obj [("source", .str "user"), ("requires_approval", .bool requiresApproval)]) now db
  .ok ((), if requiresApproval then
    logEvent env taskId "approval.requested" (.obj [("source", .str "retry")]) now db else db)

def retryTask (env : Env) (taskId : Uuid) (accountId : String) :
    TaskDb → Except Err Task × TaskDb :=
  andThen (query (retryGuard taskId accountId)) fun requiresApproval =>
    andThen (transaction (retryWrite env taskId accountId requiresApproval)) fun _ =>
      query (get taskId accountId)

end Smara.TaskStore.Lifecycle
