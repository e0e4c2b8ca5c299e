import Mathlib.Data.List.SplitBy
import Smara.TaskStore.Claim

/-! # Reports of workers and executors

What the holder of a lease calls while and after it works: completion, failure, heartbeat, progress.
A hosted worker calls `complete_step` and `fail_step` itself; a paired executor calls
`complete_executor_step` and `fail_executor_step`, which check its lease in one transaction and
finalise the step through `complete_step` and `fail_step` in the next. -/

namespace Smara.TaskStore.Report

open Lib.Table Lib.Transaction TaskStore.Schema TaskStore.Schema.TaskDb
open TaskStore.Lifecycle TaskStore.Claim

/-- The hexadecimal text of an id, of a fixed width. -/
def hex (u : Uuid) : String :=
  let digits := Nat.toDigits 16 u
  String.ofList (List.replicate (32 - digits.length) '0' ++ digits)

def digitValue (c : Char) : ℕ := if c.toNat < 58 then c.toNat - 48 else c.toNat - 87

def valueOf (cs : List Char) : ℕ := cs.foldl (fun n c => 16 * n + digitValue c) 0

theorem digitValue_digitChar : ∀ d < 16, digitValue (Nat.digitChar d) = d := by decide

theorem valueOf_append (cs : List Char) (c : Char) :
    valueOf (cs ++ [c]) = 16 * valueOf cs + digitValue c := by
  simp [valueOf, List.foldl_append]

theorem valueOf_toDigits (n : ℕ) : valueOf (Nat.toDigits 16 n) = n := by
  induction n using Nat.strongRecOn with
  | _ n ih =>
    by_cases h : n < 16
    · rw [Nat.toDigits_of_lt_base h]
      simpa [valueOf] using digitValue_digitChar n h
    · rw [Nat.toDigits_of_base_le (by decide) (by omega), valueOf_append, ih _ (by omega),
        digitValue_digitChar _ (Nat.mod_lt _ (by decide))]
      omega

theorem valueOf_zeros (n : ℕ) (cs : List Char) : valueOf (List.replicate n '0' ++ cs) = valueOf cs := by
  induction n with
  | zero => rfl
  | succ n ih => exact ih

theorem hex_injective : Function.Injective hex := by
  intro u v h
  have hdigits := congrArg (fun s : String => valueOf s.toList) h
  simpa [hex, valueOf_zeros, valueOf_toDigits] using hdigits
/-- `SELECT … FROM task_steps WHERE id=? AND task_id IN (SELECT id FROM tasks WHERE account_id=?)`. -/
def ownedStep (stepId : Uuid) (accountId : String) (db : TaskDb) : Option TaskStep :=
  db.taskSteps.find? fun s => s.id = stepId ∧ ∃ t ∈ db.tasks, t.id = s.taskId ∧ t.accountId = accountId

/-! ### Completion -/

/-- `INSERT INTO artifacts` with its event. -/
def addArtifact (env : Env) (taskId : Uuid) (kind name content : String) (now : Time)
    (db : TaskDb) : TaskDb :=
  { db with
    artifacts := db.artifacts ++ [⟨env.uuid db.artifacts.length, taskId, kind, name,
      .sha256 content, content, now⟩] }

/-- The artifact of a completion, if the kind is given and not empty. -/
def addResult (env : Env) (taskId stepId : Uuid) (artifactKind artifactName : Option String)
    (result : String) (now : Time) (db : TaskDb) : TaskDb :=
  match artifactKind.filter (· ≠ "") with
  | none => db
  | some kind =>
    let name := (artifactName.filter (· ≠ "")).getD ("step_" ++ hex stepId ++ ".txt")
    logEvent env taskId "artifact.created" (.obj [("kind", .str kind)]) now
      (addArtifact env taskId kind name (clip 20000 result) now db)

/-- The transaction of `complete_step`. -/
def completeStepWrite (env : Env) (stepId : Uuid) (accountId result : String)
    (artifactKind artifactName : Option String) (db : TaskDb) : Except Err (Unit × TaskDb) :=
  let now := env.now
  match ownedStep stepId accountId db with
  | none => .error (.keyErrorId stepId)
  | some row =>
    let db := db.updSteps (fun s => s.id = stepId ∧ s.status = .running) fun s =>
      { s with status := .completed, leaseOwner := none, leaseExpiresAt := none, lastError := none
               retryAt := none }
    let db := logEvent env row.taskId "step.completed" (.obj [("result", .str (clip 2000 result))])
      now db
    let db := addResult env row.taskId stepId artifactKind artifactName result now db
    if (∃ t ∈ lookup Task.id row.taskId db.tasks, t.cancelRequested = true) then
      let db := setRunStatus row.taskRunId .cancelled db
      let db := setTaskStatus row.taskId .cancelled now db
      .ok ((), logEvent env row.taskId "task.cancelled" (.obj [("source", .str "worker")]) now db)
    else
      let pending := db.taskSteps.countP fun s =>
        s.taskRunId = row.taskRunId ∧ s.status ≠ .completed
      if pending = 0 then
        let finalResult := clip 2000 result
        let db := setRunStatus row.taskRunId .completed db
        let db := db.updTasks (fun t => t.id = row.taskId) fun t =>
          { t with status := .completed, resultSummary := some finalResult, updatedAt := now }
        .ok ((), logEvent env row.taskId "task.completed" (.obj [("result", .str finalResult)]) now db)
      else .ok ((), db)

def completeStep (env : Env) (stepId : Uuid) (accountId result : String)
    (artifactKind artifactName : Option String) : TaskDb → Except Err Unit × TaskDb :=
  transaction (completeStepWrite env stepId accountId result artifactKind artifactName)

/-! ### Failure -/

inductive Outcome
  | retrying | failed | cancelled
  deriving DecidableEq

/-- `_workspace_retry_limit`: the allowed attempts, and the repair budget of a workspace job. -/
def workspaceRetryLimit (payload : ExecutorPayload) (defaultMaxAttempts : ℕ) : ℕ × Option ℕ :=
  match payload.workspaceJob with
  | none => (defaultMaxAttempts, none)
  | some job => (min defaultMaxAttempts (1 + job.maxRepairAttempts), some job.maxRepairAttempts)

/-- `retryable and row["attempts"] < max_attempts`, the test of `fail_step`. -/
def Retries (retryable : Bool) (row : TaskStep) : Prop :=
  retryable ∧ row.attempts < (workspaceRetryLimit row.executorPayload row.maxAttempts).1

instance (retryable : Bool) (row : TaskStep) : Decidable (Retries retryable row) := by
  unfold Retries; infer_instance

theorem Retries.lt_maxAttempts {retryable : Bool} {row : TaskStep} (h : Retries retryable row) :
    row.attempts < row.maxAttempts := by
  have hmax : (workspaceRetryLimit row.executorPayload row.maxAttempts).1 ≤ row.maxAttempts := by
    unfold workspaceRetryLimit
    split
    · exact le_rfl
    · exact min_le_left _ _
  exact lt_of_lt_of_le h.2 hmax

/-- An optional number of a payload. -/
def jsonNat : Option ℕ → JsonValue
  | none => .null
  | some n => .num n

/-- The transaction of `fail_step`. -/
def failStepWrite (env : Env) (stepId : Uuid) (accountId error : String) (retryDelaySeconds : ℤ)
    (retryable : Bool) (db : TaskDb) : Except Err (Outcome × TaskDb) :=
  let now := env.now
  match ownedStep stepId accountId db with
  | none => .error (.keyErrorId stepId)
  | some row =>
    let (maxAttempts, repairRetries) := workspaceRetryLimit row.executorPayload row.maxAttempts
    let fields := [("source", JsonValue.str "worker"), ("repair_attempt", .num (row.attempts - 1 : ℕ)),
      ("repair_budget", jsonNat repairRetries)]
    if Retries retryable row then
      let retryAt := env.clock 1 + seconds retryDelaySeconds
      let db := db.updSteps (fun s => s.id = stepId) fun s =>
        { s with status := .queued, leaseOwner := none, leaseExpiresAt := none
                 retryAt := some retryAt, lastError := some (clip 2000 error) }
      let db := setTaskStatus row.taskId .queued now db
      .ok (.retrying, logEvent env row.taskId "step.retry_scheduled" (.obj fields) now db)
    else
      let db := releaseStep stepId .failed (fun _ => some (clip 2000 error)) db
      let db := setRunStatus row.taskRunId .failed db
      let db := setTaskStatus row.taskId .failed now db
      let db := addDeadLetter env row.taskId stepId accountId (clip 2000 error) row.attempts now db
      let exhausted := repairRetries.isSome ∧ maxAttempts ≤ row.attempts
      .ok (.failed, logEvent env row.taskId "step.failed"
        (.obj (fields ++ [("repair_budget_exhausted", .bool exhausted)])) now db)

def failStep (env : Env) (stepId : Uuid) (accountId error : String) (retryDelaySeconds : ℤ)
    (retryable : Bool) : TaskDb → Except Err Outcome × TaskDb :=
  transaction (failStepWrite env stepId accountId error retryDelaySeconds retryable)

/-! ### Executors -/

def leasedStep (stepId executorId : Uuid) (db : TaskDb) : Option TaskStep :=
  db.taskSteps.find? fun s =>
    s.id = stepId ∧ s.leaseOwner = some (.executor executorId) ∧ s.status = .running

/-- `UPDATE executor_leases SET completed_at=? WHERE step_id=? AND executor_id=?`. -/
def closeLease (stepId executorId : Uuid) (now : Time) (db : TaskDb) : TaskDb :=
  db.updLeases (fun l => l.stepId = stepId ∧ l.executorId = executorId) fun l =>
    { l with completedAt := some now }

/-- The lease check of `complete_executor_step`, the first of its transactions. -/
def completeExecutorCheck (env : Env) (executorId stepId : Uuid) (db : TaskDb) :
    Except Err (Uuid × TaskDb) :=
  match leasedStep stepId executorId db with
  | none => .error (.keyError "lease")
  | some row => .ok (row.taskId, closeLease stepId executorId env.now db)

/-- The second transaction of `complete_executor_step`: `complete_step` with its artifact. -/
def completeExecutorFinish (env : Env) (stepId : Uuid) (accountId result : String) :
    TaskDb → Except Err Unit × TaskDb :=
  completeStep env stepId accountId result (some "desktop_step_result")
    (some ("step_" ++ hex stepId ++ ".json"))

def completeExecutorStep (env : Env) (executorId : Uuid) (token : String) (stepId : Uuid)
    (result : String) : TaskDb → Except Err Unit × TaskDb :=
  andThen (query (executor executorId token)) fun e =>
    andThen (transaction (completeExecutorCheck env executorId stepId)) fun taskId =>
      andThen (query (get taskId e.accountId)) fun task =>
        completeExecutorFinish env.next stepId task.accountId result

/-- The first transaction of `fail_executor_step`: the step of a cancelled task is closed here.
Returns whether it was, and whether the failure may be retried. -/
def failExecutorCheck (env : Env) (executorId stepId : Uuid) (error : String) (db : TaskDb) :
    Except Err ((Bool × Bool) × TaskDb) :=
  match leasedStep stepId executorId db with
  | none => .error (.keyError "lease")
  | some row =>
    match lookup Task.id row.taskId db.tasks with
    | none => .error (.keyError "lease")
    | some t =>
      let retryable : Bool := row.requiredCapability = some "local_file_read"
      let db := closeLease stepId executorId env.now db
      if t.cancelRequested then
        let now := env.clock 1
        let db := releaseStep stepId .cancelled (fun _ => some (clip 2000 error)) db
        let db := setRunStatus row.taskRunId .cancelled db
        let db := setTaskStatus row.taskId .cancelled now db
        .ok ((true, retryable), logEvent env row.taskId "task.cancelled"
          (.obj [("source", .str "desktop_executor")]) now db)
      else .ok ((false, retryable), db)

def failExecutorStep (env : Env) (executorId : Uuid) (token : String) (stepId : Uuid)
    (error : String) : TaskDb → Except Err Outcome × TaskDb :=
  andThen (query (executor executorId token)) fun e =>
    andThen (transaction (failExecutorCheck env executorId stepId error)) fun (cancelled, retryable) =>
      if cancelled then query fun _ => .ok .cancelled
      else failStep env.next stepId e.accountId error 30 retryable

/-- The result of `heartbeat_executor_step`. -/
structure Heartbeat where
  ok : Bool
  cancelRequested : Bool
  leaseExpiresAt : Option Time
  deriving DecidableEq

/-- The transaction of `heartbeat_executor_step`. -/
def heartbeatWrite (env : Env) (executorId stepId : Uuid) (leaseSeconds : ℤ) (db : TaskDb) :
    Except Err (Heartbeat × TaskDb) :=
  let until_ := env.clock 1 + seconds leaseSeconds
  match lookup TaskStep.id stepId db.taskSteps with
  | none => .error (.keyError "lease")
  | some s =>
    match lookup Task.id s.taskId db.tasks with
    | none => .error (.keyError "lease")
    | some t =>
      if s.status ≠ .running ∨ s.leaseOwner ≠ some (.executor executorId) then
        .error (.keyError "lease")
      else if t.cancelRequested then .ok (⟨false, true, none⟩, db)
      else
        let db := db.updSteps (fun s => s.id = stepId ∧ s.status = .running ∧
            s.leaseOwner = some (.executor executorId)) fun s =>
          { s with leaseExpiresAt := some until_ }
        let db := db.updLeases (fun l => l.stepId = stepId ∧ l.executorId = executorId ∧
            l.completedAt = none) fun l => { l with expiresAt := until_ }
        .ok (⟨true, false, some until_⟩, db)

def heartbeatExecutorStep (env : Env) (executorId : Uuid) (token : String) (stepId : Uuid)
    (leaseSeconds : ℤ) : TaskDb → Except Err Heartbeat × TaskDb :=
  andThen (query (executor executorId token)) fun _ =>
    transaction (heartbeatWrite env executorId stepId leaseSeconds)

/-! ### Events and artifacts -/

/-- The characters `str.split()` separates at. -/
def isSpace (c : Char) : Bool :=
  let n := c.toNat
  (9 ≤ n && n ≤ 13) || (28 ≤ n && n ≤ 32) || n == 0x85 || n == 0xa0 || n == 0x1680 ||
    (0x2000 ≤ n && n ≤ 0x200a) || n == 0x2028 || n == 0x2029 || n == 0x202f || n == 0x205f ||
    n == 0x3000

/-- `" ".join(text.split())`. -/
def collapseSpaces (text : String) : String :=
  String.ofList ([' '].intercalate ((text.toList.splitOnP isSpace).filter (· ≠ [])))

def appendExecutorProgress (env : Env) (executorId : Uuid) (token : String) (stepId : Uuid)
    (message : String) : TaskDb → Except Err Unit × TaskDb :=
  andThen (query (executor executorId token)) fun _ =>
    let safeMessage := clip 500 (collapseSpaces message)
    if safeMessage = "" then
      query fun _ => .error (.valueError "Executor progress must contain a message.")
    else transaction fun db =>
      match leasedStep stepId executorId db with
      | none => .error (.keyError "lease")
      | some row => .ok ((), logEvent env row.taskId "executor.progress"
          (.obj [("executor_id", .num executorId), ("message", .str safeMessage)]) env.now db)

def appendEvent (env : Env) (taskId : Uuid) (type : String) (payload : Payload) :
    TaskDb → Except Err Unit × TaskDb :=
  transaction fun db => .ok ((), logEvent env taskId type payload env.now db)

def createArtifact (env : Env) (taskId : Uuid) (accountId kind name content : String) :
    TaskDb → Except Err Unit × TaskDb :=
  andThen (query (get taskId accountId)) fun _ =>
    andThen (transaction fun db => .ok ((), addArtifact env taskId kind name content env.now db))
      fun _ => appendEvent env.next taskId "artifact.created" (.obj [("kind", .str kind)])

end Smara.TaskStore.Report
