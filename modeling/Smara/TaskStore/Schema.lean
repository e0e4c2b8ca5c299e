import Smara.Lib.Table
import Smara.Lib.Transaction

/-! # The tables of the task control plane

The rows of the tables that `TaskStore` keeps for tasks, and the statements on them. One `TaskDb`
owns tasks, events, approvals, runs, steps, dependencies, evidence, artifacts, executors, leases and
dead letters.

* An id is the 128-bit value of the `uuid4` in it: the hexadecimal text has a fixed width, so ids
  compare as these numbers do.
* A time is a number of microseconds; the ISO texts of UTC times compare in the same way.
* `Env` is what one call reads from outside: its successive clock readings, and the `uuid4` drawn for
  the next row of a table with `n` rows. Nothing is assumed of either.
* `Constraints` are the keys and checks of the schema. A transaction whose result violates them
  raises `IntegrityError` and leaves the tables alone (`transaction`). -/

namespace Smara.TaskStore.Schema

open Lib.Table Lib.Transaction

abbrev Uuid := ℕ

abbrev Time := ℤ

/-- `timedelta(seconds=n)`. -/
def seconds (n : ℤ) : Time := n * 1000000

inductive TaskStatus
  | queued | waitingApproval | running | cancelling | cancelled | completed | failed
  deriving DecidableEq

inductive StepStatus
  | queued | running | completed | failed | cancelled
  deriving DecidableEq

inductive RunStatus
  | queued | running | completed | failed | cancelled
  deriving DecidableEq

inductive ApprovalStatus
  | approved | denied
  deriving DecidableEq

inductive ApprovalMode
  | hosted | desktop
  deriving DecidableEq

inductive ExecutorKind
  | hosted | sandbox | desktop
  deriving DecidableEq

inductive ExecutorStatus
  | active | revoked
  deriving DecidableEq

/-- Who holds the lease of a step: a hosted worker under the name it passes, or a paired executor. -/
inductive Owner
  | worker (workerId : String)
  | executor (executorId : Uuid)
  deriving DecidableEq

/-- A SHA-256 digest, taken to be injective. -/
inductive Digest
  | sha256 (text : String)
  deriving DecidableEq

inductive JsonValue
  | null
  | bool (b : Bool)
  | num (n : ℤ)
  | str (s : String)
  deriving DecidableEq

/-- The payload of an event: the flat object the store dumps, or a text a caller supplies. -/
inductive Payload
  | obj (fields : List (String × JsonValue))
  | text (s : String)
  deriving DecidableEq

/-- A job that `validate_workspace_job` accepts. The store reads its repair budget only. -/
structure WorkspaceJob where
  maxRepairAttempts : ℕ
  budget : maxRepairAttempts ≤ 3
  deriving DecidableEq

/-- The payload of a step: its text, and the job under `workspace_job` if there is a valid one. -/
structure ExecutorPayload where
  text : String
  workspaceJob : Option WorkspaceJob
  deriving DecidableEq

/-! ### Rows -/

structure Task where
  id : Uuid
  accountId : String
  workspaceId : String
  title : String
  objective : String
  status : TaskStatus
  requiresApproval : Bool
  approvalMode : ApprovalMode
  createdAt : Time
  updatedAt : Time
  cancelRequested : Bool
  resultSummary : Option String
  deriving DecidableEq

structure TaskEvent where
  id : Uuid
  taskId : Uuid
  type : String
  payload : Payload
  createdAt : Time
  deriving DecidableEq

structure Approval where
  taskId : Uuid
  status : ApprovalStatus
  note : String
  decidedAt : Time
  deriving DecidableEq

structure TaskRun where
  id : Uuid
  taskId : Uuid
  attempt : ℕ
  status : RunStatus
  createdAt : Time
  deriving DecidableEq

/-- A step. The key `task:{task_id}:step:{ordinal}` is given by its two parts. -/
structure TaskStep where
  id : Uuid
  taskId : Uuid
  taskRunId : Uuid
  ordinal : ℕ
  name : String
  status : StepStatus
  idempotencyKey : Uuid × ℕ
  leaseOwner : Option Owner
  leaseExpiresAt : Option Time
  createdAt : Time
  attempts : ℕ
  maxAttempts : ℕ
  retryAt : Option Time
  lastError : Option String
  requiredCapability : Option String
  executorKind : ExecutorKind
  executorPayload : ExecutorPayload
  deriving DecidableEq

structure Dependency where
  stepId : Uuid
  dependsOnStepId : Uuid
  deriving DecidableEq

structure Evidence where
  id : Uuid
  taskId : Uuid
  url : String
  title : Option String
  status : String
  createdAt : Time
  deriving DecidableEq

/-- An artifact. Its `uri` is `inline://artifacts/` followed by its id. -/
structure Artifact where
  id : Uuid
  taskId : Uuid
  kind : String
  name : String
  sha256 : Digest
  content : String
  createdAt : Time
  deriving DecidableEq

structure Executor where
  id : Uuid
  accountId : String
  name : String
  capabilities : List String
  tokenHash : Digest
  status : ExecutorStatus
  lastSeenAt : Option Time
  createdAt : Time
  deriving DecidableEq

structure Pairing where
  codeHash : Digest
  accountId : String
  name : String
  capabilities : List String
  expiresAt : Time
  consumedAt : Option Time
  deriving DecidableEq

structure ExecutorLease where
  id : Uuid
  stepId : Uuid
  executorId : Uuid
  expiresAt : Time
  completedAt : Option Time
  createdAt : Time
  deriving DecidableEq

structure DeadLetter where
  id : Uuid
  taskId : Uuid
  stepId : Uuid
  accountId : String
  error : String
  attempts : ℕ
  createdAt : Time
  resolvedAt : Option Time
  deriving DecidableEq

/-! ### The database -/

structure TaskDb where
  tasks : List Task := []
  taskEvents : List TaskEvent := []
  approvals : List Approval := []
  taskRuns : List TaskRun := []
  taskSteps : List TaskStep := []
  taskStepDependencies : List Dependency := []
  researchEvidence : List Evidence := []
  artifacts : List Artifact := []
  desktopExecutors : List Executor := []
  executorPairings : List Pairing := []
  executorLeases : List ExecutorLease := []
  taskDeadLetters : List DeadLetter := []
  deriving DecidableEq

/-- What a call reads from outside: `clock k` is its reading number `k` of the clock, and `uuid n`
the value drawn for the row inserted into a table of `n` rows. -/
structure Env where
  clock : ℕ → Time
  uuid : ℕ → Uuid

/-- `_now()`, the first reading of the clock. -/
def Env.now (env : Env) : Time := env.clock 0

def Env.next (env : Env) : Env := { env with clock := fun k => env.clock (k + 1) }

def envAt (n : ℤ) : Env := ⟨fun _ => seconds n, id⟩

inductive Err
  | keyErrorId (id : Uuid)
  | keyError (key : String)
  | valueError (message : String)
  | indexError
  | integrityError
  deriving DecidableEq

namespace TaskDb

def updTasks (p : Task → Prop) [DecidablePred p] (f : Task → Task) (db : TaskDb) : TaskDb :=
  { db with tasks := updateWhere p f db.tasks }

def updRuns (p : TaskRun → Prop) [DecidablePred p] (f : TaskRun → TaskRun) (db : TaskDb) : TaskDb :=
  { db with taskRuns := updateWhere p f db.taskRuns }

def updSteps (p : TaskStep → Prop) [DecidablePred p] (f : TaskStep → TaskStep) (db : TaskDb) :
    TaskDb :=
  { db with taskSteps := updateWhere p f db.taskSteps }

def updLeases (p : ExecutorLease → Prop) [DecidablePred p] (f : ExecutorLease → ExecutorLease)
    (db : TaskDb) : TaskDb :=
  { db with executorLeases := updateWhere p f db.executorLeases }

def updDeadLetters (p : DeadLetter → Prop) [DecidablePred p] (f : DeadLetter → DeadLetter)
    (db : TaskDb) : TaskDb :=
  { db with taskDeadLetters := updateWhere p f db.taskDeadLetters }

/-- `INSERT INTO task_events`. -/
def logEvent (env : Env) (taskId : Uuid) (type : String) (payload : Payload) (now : Time)
    (db : TaskDb) : TaskDb :=
  { db with
    taskEvents := db.taskEvents ++ [⟨env.uuid db.taskEvents.length, taskId, type, payload, now⟩] }

/-- `INSERT INTO approvals … ON CONFLICT(task_id) DO UPDATE`. -/
def setApproval (taskId : Uuid) (status : ApprovalStatus) (note : String) (now : Time)
    (db : TaskDb) : TaskDb :=
  { db with
    approvals := upsert Approval.taskId ⟨taskId, status, note, now⟩
      (fun a => { a with status := status, note := note, decidedAt := now }) db.approvals }

/-- `INSERT INTO task_dead_letters`. -/
def addDeadLetter (env : Env) (taskId stepId : Uuid) (accountId error : String) (attempts : ℕ)
    (now : Time) (db : TaskDb) : TaskDb :=
  { db with
    taskDeadLetters := db.taskDeadLetters ++
      [⟨env.uuid db.taskDeadLetters.length, taskId, stepId, accountId, error, attempts, now, none⟩] }

/-! ### Constraints and transactions -/

/-- The primary keys, the `UNIQUE` keys and the check of the schema. -/
structure Constraints (db : TaskDb) : Prop where
  tasks : Keyed Task.id db.tasks
  taskEvents : Keyed TaskEvent.id db.taskEvents
  approvals : Keyed Approval.taskId db.approvals
  taskRuns : Keyed TaskRun.id db.taskRuns
  runAttempts : Keyed (fun r : TaskRun => (r.taskId, r.attempt)) db.taskRuns
  taskSteps : Keyed TaskStep.id db.taskSteps
  stepOrdinals : Keyed (fun s : TaskStep => (s.taskRunId, s.ordinal)) db.taskSteps
  idempotencyKeys : Keyed TaskStep.idempotencyKey db.taskSteps
  dependencies : Keyed (fun d : Dependency => (d.stepId, d.dependsOnStepId)) db.taskStepDependencies
  dependencyCheck : ∀ d ∈ db.taskStepDependencies, d.stepId ≠ d.dependsOnStepId
  evidence : Keyed Evidence.id db.researchEvidence
  evidenceUrls : Keyed (fun e : Evidence => (e.taskId, e.url)) db.researchEvidence
  artifacts : Keyed Artifact.id db.artifacts
  desktopExecutors : Keyed Executor.id db.desktopExecutors
  executorPairings : Keyed Pairing.codeHash db.executorPairings
  executorLeases : Keyed ExecutorLease.id db.executorLeases
  leasedSteps : Keyed ExecutorLease.stepId db.executorLeases
  taskDeadLetters : Keyed DeadLetter.id db.taskDeadLetters

theorem constraints_iff (db : TaskDb) : Constraints db ↔
    Keyed Task.id db.tasks ∧ Keyed TaskEvent.id db.taskEvents ∧
    Keyed Approval.taskId db.approvals ∧ Keyed TaskRun.id db.taskRuns ∧
    Keyed (fun r : TaskRun => (r.taskId, r.attempt)) db.taskRuns ∧
    Keyed TaskStep.id db.taskSteps ∧
    Keyed (fun s : TaskStep => (s.taskRunId, s.ordinal)) db.taskSteps ∧
    Keyed TaskStep.idempotencyKey db.taskSteps ∧
    Keyed (fun d : Dependency => (d.stepId, d.dependsOnStepId)) db.taskStepDependencies ∧
    (∀ d ∈ db.taskStepDependencies, d.stepId ≠ d.dependsOnStepId) ∧
    Keyed Evidence.id db.researchEvidence ∧
    Keyed (fun e : Evidence => (e.taskId, e.url)) db.researchEvidence ∧
    Keyed Artifact.id db.artifacts ∧ Keyed Executor.id db.desktopExecutors ∧
    Keyed Pairing.codeHash db.executorPairings ∧ Keyed ExecutorLease.id db.executorLeases ∧
    Keyed ExecutorLease.stepId db.executorLeases ∧ Keyed DeadLetter.id db.taskDeadLetters :=
  ⟨fun ⟨a, b, c, d, e, f, g, h, i, j, k, l, m, n, o, p, q, r⟩ =>
    ⟨a, b, c, d, e, f, g, h, i, j, k, l, m, n, o, p, q, r⟩,
   fun ⟨a, b, c, d, e, f, g, h, i, j, k, l, m, n, o, p, q, r⟩ =>
    ⟨a, b, c, d, e, f, g, h, i, j, k, l, m, n, o, p, q, r⟩⟩

instance (db : TaskDb) : Decidable db.Constraints :=
  decidable_of_iff _ (constraints_iff db).symm

end TaskDb

open TaskDb

/-- **A transaction**: the body runs on the committed tables, and its writes are kept if it does not
raise and the constraints hold. -/
def transaction {β : Type} (body : TaskDb → Except Err (β × TaskDb)) :
    TaskDb → Except Err β × TaskDb :=
  commit TaskDb.Constraints .integrityError body

theorem transaction_eq {β : Type} (body : TaskDb → Except Err (β × TaskDb)) (db : TaskDb) :
    (∃ b db', body db = .ok (b, db') ∧ db'.Constraints ∧ transaction body db = (.ok b, db')) ∨
      ∃ e, transaction body db = (.error e, db) := commit_eq _ _ body db

end Smara.TaskStore.Schema
