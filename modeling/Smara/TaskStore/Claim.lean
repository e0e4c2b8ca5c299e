import Mathlib.Data.List.ProdSigma
import Smara.TaskStore.Lifecycle

/-! # Claiming steps and recovering leases

`claim_one` for hosted workers and `claim_for_executor` for paired desktops. Each is one transaction:
expired leases are recovered, then the first ready step is leased. `ORDER BY t.created_at, s.ordinal
LIMIT 1` takes the first row with the least key in the order of insertion. -/

namespace Smara.TaskStore.Claim

open Lib.Table Lib.Transaction TaskStore.Schema TaskStore.Schema.TaskDb
open TaskStore.Lifecycle

/-! ### Queries -/

/-- `lease_expires_at < now`, false for `NULL`. -/
def Expired (now : Time) (s : TaskStep) : Prop := ∃ e ∈ s.leaseExpiresAt, e < now

/-- `retry_at IS NULL OR retry_at <= now`. -/
def RetryDue (now : Time) (s : TaskStep) : Prop := ∀ r ∈ s.retryAt, r ≤ now

/-- `NOT EXISTS` a dependency of the step whose parent is not completed. -/
def Unblocked (db : TaskDb) (s : TaskStep) : Prop :=
  ¬ ∃ d ∈ db.taskStepDependencies, ∃ parent ∈ db.taskSteps,
    parent.id = d.dependsOnStepId ∧ d.stepId = s.id ∧ parent.status ≠ .completed

instance (now : Time) (s : TaskStep) : Decidable (Expired now s) := by
  unfold Expired; infer_instance

instance (now : Time) (s : TaskStep) : Decidable (RetryDue now s) := by
  unfold RetryDue; infer_instance

instance (db : TaskDb) (s : TaskStep) : Decidable (Unblocked db s) := by
  unfold Unblocked; infer_instance

/-- `FROM tasks t JOIN task_steps s ON s.task_id=t.id WHERE p`. -/
def joined (db : TaskDb) (p : Task × TaskStep → Prop) [DecidablePred p] : List (Task × TaskStep) :=
  (db.tasks ×ˢ db.taskSteps).filter fun r => r.2.taskId = r.1.id ∧ p r

/-- `ORDER BY t.created_at, s.ordinal LIMIT 1`. -/
def firstRow (rows : List (Task × TaskStep)) : Option (Task × TaskStep) :=
  firstBy (fun r r' => r.1.createdAt < r'.1.createdAt ∨
    (r.1.createdAt = r'.1.createdAt ∧ r.2.ordinal < r'.2.ordinal)) rows

/-- The row a claim returns: the task with its step, and the lease the step was given. -/
structure Claimed where
  task : Task
  stepId : Uuid
  taskRunId : Uuid
  idempotencyKey : Uuid × ℕ
  name : String
  executorPayload : ExecutorPayload
  leaseOwner : Option Owner
  leaseExpiresAt : Option Time
  deriving DecidableEq

def claimedRow (t : Task) (s : TaskStep) (owner : Option Owner) (until_ : Option Time) : Claimed :=
  ⟨t, s.id, s.taskRunId, s.idempotencyKey, s.name, s.executorPayload, owner, until_⟩

/-! ### Updates shared by the claims and the reports -/

/-- The step loses its lease and gets a new status. -/
def releaseStep (stepId : Uuid) (status : StepStatus) (lastError : Option String → Option String)
    (db : TaskDb) : TaskDb :=
  db.updSteps (fun s => s.id = stepId) fun s =>
    { s with status := status, leaseOwner := none, leaseExpiresAt := none
             lastError := lastError s.lastError }

def setRunStatus (runId : Uuid) (status : RunStatus) (db : TaskDb) : TaskDb :=
  db.updRuns (fun r => r.id = runId) fun r => { r with status := status }

def setTaskStatus (taskId : Uuid) (status : TaskStatus) (now : Time) (db : TaskDb) : TaskDb :=
  db.updTasks (fun t => t.id = taskId) fun t => { t with status := status, updatedAt := now }

/-- `UPDATE tasks SET status='queued' WHERE id=? AND status='running'`. -/
def requeueTask (taskId : Uuid) (now : Time) (db : TaskDb) : TaskDb :=
  db.updTasks (fun t => t.id = taskId ∧ t.status = .running) fun t =>
    { t with status := .queued, updatedAt := now }

def startStep (taskId runId stepId : Uuid) (owner : Owner) (until_ now : Time) (db : TaskDb) :
    TaskDb :=
  (setRunStatus runId .running (setTaskStatus taskId .running now db)).updSteps
    (fun s => s.id = stepId) fun s =>
      { s with status := .running, leaseOwner := some owner, leaseExpiresAt := some until_
               attempts := s.attempts + 1, retryAt := none }

/-! ### `claim_one` -/

/-- The body of the recovery loop of `claim_one`. -/
def recoverHosted (env : Env) (now : Time) (db : TaskDb) (item : TaskStep) : TaskDb :=
  let cancelled := lookup Task.id item.taskId db.tasks
  if (∃ t ∈ cancelled, t.cancelRequested = true) then
    let db := releaseStep item.id .cancelled id db
    let db := match lookup TaskStep.id item.id db.taskSteps with
      | some s => setRunStatus s.taskRunId .cancelled db
      | none => db
    let db := setTaskStatus item.taskId .cancelled now db
    logEvent env item.taskId "task.cancelled" (.obj [("source", .str "lease_recovery")]) now db
  else
    let db := releaseStep item.id .queued id db
    let db := requeueTask item.taskId now db
    logEvent env item.taskId "step.lease_expired" (.obj [("recovered", .bool true)]) now db

def expiredHosted (now : Time) (db : TaskDb) : List TaskStep :=
  db.taskSteps.filter fun s => s.status = .running ∧
    (s.executorKind = .hosted ∨ s.executorKind = .sandbox) ∧ Expired now s

/-- `set(executor_kinds) == {"hosted", "sandbox"}`. -/
def BothKinds (kinds : List ExecutorKind) : Prop :=
  (∀ k ∈ kinds, k = .hosted ∨ k = .sandbox) ∧ .hosted ∈ kinds ∧ .sandbox ∈ kinds

instance (kinds : List ExecutorKind) : Decidable (BothKinds kinds) := by
  unfold BothKinds; infer_instance

/-- The executor clause of `claim_one`: a desktop step is selected to raise its approval gate. -/
def ExecutorClause (kinds : List ExecutorKind) (t : Task) (s : TaskStep) : Prop :=
  (s.executorKind = .hosted ∨ (BothKinds kinds ∧ s.executorKind = .sandbox)) ∨
    (s.executorKind = .desktop ∧ t.requiresApproval = true)

instance (kinds : List ExecutorKind) (t : Task) (s : TaskStep) :
    Decidable (ExecutorClause kinds t s) := by unfold ExecutorClause; infer_instance

/-- The row `claim_one` selects. -/
def readyHosted (now : Time) (kinds : List ExecutorKind) (db : TaskDb) : Option (Task × TaskStep) :=
  firstRow (joined db fun r =>
    (r.1.status = .queued ∨ r.1.status = .running) ∧ r.2.status = .queued ∧
      ExecutorClause kinds r.1 r.2 ∧ RetryDue now r.2 ∧ Unblocked db r.2)

/-- The transaction of `claim_one`. -/
def claimOneWrite (env : Env) (workerId : String) (leaseSeconds : ℤ) (kinds : List ExecutorKind)
    (db : TaskDb) : Except Err (Option Claimed × TaskDb) :=
  let now := env.now
  let db := (expiredHosted now db).foldl (recoverHosted env now) db
  match readyHosted now kinds db with
  | none => .ok (none, db)
  | some (t, s) =>
    if t.requiresApproval ∧ t.status = .queued then
      let db := setTaskStatus t.id .waitingApproval now db
      let db := logEvent env t.id "approval.requested" (.obj [("source", .str "worker")]) now db
      .ok (some (claimedRow { t with status := .waitingApproval, updatedAt := now } s none none), db)
    else
      let owner := Owner.worker workerId
      let db := startStep t.id s.taskRunId s.id owner (env.clock 1 + seconds leaseSeconds) now db
      let db := logEvent env t.id "task.started" (.obj [("source", .str "worker")]) now db
      .ok (some (claimedRow { t with status := .running, updatedAt := now } s (some owner) none), db)

def claimOne (env : Env) (workerId : String) (leaseSeconds : ℤ) (kinds : List ExecutorKind) :
    TaskDb → Except Err (Option Claimed) × TaskDb :=
  transaction (claimOneWrite env workerId leaseSeconds kinds)

/-! ### `claim_for_executor` -/

def safeCapabilities : List String :=
  ["local_file_read", "local_browser", "local_integration", "local_calculate", "local_python",
    "local_graph"]

def expiredDesktop (now : Time) (db : TaskDb) : List (Task × TaskStep) :=
  joined db fun r => r.2.status = .running ∧ r.2.executorKind = .desktop ∧ Expired now r.2

def uncertainError : String :=
  "Desktop lease expired after a potentially side-effecting action; automatic replay was blocked."

/-- The body of the recovery loop of `claim_for_executor`. -/
def recoverDesktop (env : Env) (now : Time) (db : TaskDb) (item : Task × TaskStep) : TaskDb :=
  let (t, s) := item
  let (db, type, payload) :=
    if t.cancelRequested then
      let db := releaseStep s.id .cancelled id db
      let db := setRunStatus s.taskRunId .cancelled db
      let db := setTaskStatus s.taskId .cancelled now db
      (db, "task.cancelled", Payload.obj [("source", .str "executor_lease_recovery")])
    else if s.requiredCapability = some "local_file_read" then
      let db := releaseStep s.id .queued id db
      let db := requeueTask s.taskId now db
      (db, "executor.lease_expired", .obj [("recovered", .bool true)])
    else
      -- the outcome of a write, a command or a launch is unknown: it is not replayed
      let db := releaseStep s.id .failed (fun _ => some uncertainError) db
      let db := setRunStatus s.taskRunId .failed db
      let db := setTaskStatus s.taskId .failed now db
      let db := addDeadLetter env s.taskId s.id t.accountId uncertainError s.attempts now db
      (db, "executor.lease_expired_uncertain",
        .obj [("recovered", .bool false), ("replay_blocked", .bool true)])
  let db := db.updLeases (fun l => l.stepId = s.id ∧ l.completedAt = none) fun l =>
    { l with completedAt := some now }
  logEvent env s.taskId type payload now db

def allowedSafe (capabilities : List String) (autoApproveLocal : Bool) : List String :=
  if autoApproveLocal then capabilities else safeCapabilities.filter (· ∈ capabilities)

def safeValues (capabilities : List String) (autoApproveLocal : Bool) : List String :=
  if autoApproveLocal then capabilities else safeCapabilities

/-- A task that the desktop's policy releases without a person. -/
def AutoApprovable (capabilities : List String) (autoApproveLocal : Bool) (accountId : String)
    (db : TaskDb) (t : Task) : Prop :=
  t.accountId = accountId ∧ (t.status = .queued ∨ t.status = .waitingApproval) ∧
    t.requiresApproval = true ∧
    (∃ s ∈ db.taskSteps, s.taskId = t.id ∧ s.status = .queued ∧ s.executorKind = .desktop ∧
      ∃ c ∈ s.requiredCapability, c ∈ allowedSafe capabilities autoApproveLocal) ∧
    (∀ s ∈ db.taskSteps, s.taskId = t.id → s.executorKind = .desktop ∧
      ∃ c ∈ s.requiredCapability, c ∈ safeValues capabilities autoApproveLocal) ∧
    ¬ ∃ a ∈ db.approvals, a.taskId = t.id

instance (capabilities : List String) (auto : Bool) (accountId : String) (db : TaskDb) (t : Task) :
    Decidable (AutoApprovable capabilities auto accountId db t) := by
  unfold AutoApprovable; infer_instance

/-- The body of the loop over the candidates for automatic approval. -/
def autoApprove (env : Env) (now : Time) (accountId : String) (autoApproveLocal : Bool)
    (db : TaskDb) (t : Task) : TaskDb :=
  let db := db.setApproval t.id .approved
    "Automatically approved by this desktop's local approval policy." now
  let db := db.updTasks
    (fun t' => t'.id = t.id ∧ t'.accountId = accountId ∧ t'.requiresApproval = true) fun t' =>
      { t' with status := .queued, requiresApproval := false, updatedAt := now }
  logEvent env t.id "approval.approved" (.obj [("source", .str "desktop_policy"),
    ("policy", .str (if autoApproveLocal then "approve_for_me" else "safe_read"))]) now db

/-- The row `claim_for_executor` selects. -/
def readyDesktop (now : Time) (accountId : String) (capabilities : List String) (db : TaskDb) :
    Option (Task × TaskStep) :=
  firstRow (joined db fun r =>
    (∃ a ∈ db.approvals, a.taskId = r.1.id ∧ a.status = .approved) ∧ r.1.accountId = accountId ∧
      (r.1.status = .queued ∨ r.1.status = .running) ∧ r.1.requiresApproval = false ∧
      r.2.status = .queued ∧ r.2.executorKind = .desktop ∧ RetryDue now r.2 ∧ Unblocked db r.2 ∧
      ∃ c ∈ r.2.requiredCapability, c ∈ capabilities)

/-- The transaction of `claim_for_executor`. -/
def claimForExecutorWrite (env : Env) (executor : Executor) (leaseSeconds : ℤ)
    (autoApproveSafe autoApproveLocal : Bool) (db : TaskDb) :
    Except Err (Option Claimed × TaskDb) :=
  let now := env.now
  let capabilities := executor.capabilities
  let db := (expiredDesktop now db).foldl (recoverDesktop env now) db
  let candidates := if autoApproveSafe || autoApproveLocal then
      db.tasks.filter fun t =>
        AutoApprovable capabilities autoApproveLocal executor.accountId db t
    else []
  let db := candidates.foldl (autoApprove env now executor.accountId autoApproveLocal) db
  match readyDesktop now executor.accountId capabilities db with
  | none => .ok (none, db)
  | some (t, s) =>
    let until_ := env.clock 1 + seconds leaseSeconds
    let owner := Owner.executor executor.id
    let db := startStep t.id s.taskRunId s.id owner until_ now db
    let leaseId := env.uuid db.executorLeases.length
    let db := { db with
      executorLeases := upsert ExecutorLease.stepId ⟨leaseId, s.id, executor.id, until_, none, now⟩
        (fun _ => ⟨leaseId, s.id, executor.id, until_, none, now⟩) db.executorLeases }
    let db := logEvent env t.id "executor.step_claimed"
      (.obj [("executor_id", .num executor.id)]) now db
    .ok (some (claimedRow { t with status := .running } s (some owner) (some until_)), db)

def claimForExecutor (env : Env) (executorId : Uuid) (token : String) (leaseSeconds : ℤ)
    (autoApproveSafe autoApproveLocal : Bool) : TaskDb → Except Err (Option Claimed) × TaskDb :=
  andThen (query (executor executorId token)) fun e =>
    transaction (claimForExecutorWrite env e leaseSeconds autoApproveSafe autoApproveLocal)

end Smara.TaskStore.Claim
