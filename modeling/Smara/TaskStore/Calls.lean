import Mathlib.Data.List.Sort
import Smara.TaskStore.Report

/-! # The calls of the task control plane

Evidence and executors, and `Call`: every mutating call of `TaskStore` on the tables of tasks, with
what it reads from outside. `step` is the state after a call and `started` the step that the call
hands out under a lease. -/

namespace Smara.TaskStore.Calls

open Lib.Table Lib.Transaction TaskStore.Schema TaskStore.Schema.TaskDb
open TaskStore.Lifecycle TaskStore.Claim TaskStore.Report

/-! ### Evidence -/

/-- `add_evidence`: `INSERT … ON CONFLICT(task_id,url) DO NOTHING`. -/
def addEvidence (env : Env) (taskId : Uuid) (accountId url : String) (title : Option String) :
    TaskDb → Except Err Bool × TaskDb :=
  andThen (query (get taskId accountId)) fun _ => transaction fun db =>
    if ∃ e ∈ db.researchEvidence, e.taskId = taskId ∧ e.url = url then .ok (false, db)
    else .ok (true, { db with
      researchEvidence := db.researchEvidence ++
        [⟨env.uuid db.researchEvidence.length, taskId, url, title, "pending", env.now⟩] })

/-- `update_evidence`, on the columns of the model. -/
def updateEvidence (evidenceId taskId : Uuid) (status : String) (title : Option String) :
    TaskDb → Except Err Unit × TaskDb :=
  transaction fun db => .ok ((), { db with
    researchEvidence := updateWhere (fun e => e.id = evidenceId ∧ e.taskId = taskId)
      (fun e => { e with status := status, title := title }) db.researchEvidence })

/-! ### Executors -/

def createExecutorPairing (env : Env) (code accountId name : String) (capabilities : List String) :
    TaskDb → Except Err Unit × TaskDb :=
  transaction fun db => .ok ((), { db with
    executorPairings := db.executorPairings ++ [⟨.sha256 code, accountId, name,
      capabilities.dedup.insertionSort (· ≤ ·), env.clock 1 + seconds 600, none⟩] })

def openPairing (code : String) (now : Time) (db : TaskDb) : Option Pairing :=
  db.executorPairings.find? fun p =>
    p.codeHash = .sha256 code ∧ p.consumedAt = none ∧ now < p.expiresAt

def pairExecutorWrite (env : Env) (code token : String) (pairing : Pairing) (db : TaskDb) : TaskDb :=
  { db with
    desktopExecutors := db.desktopExecutors ++ [⟨env.uuid db.desktopExecutors.length,
      pairing.accountId, pairing.name, pairing.capabilities, .sha256 token, .active, some env.now,
      env.now⟩]
    executorPairings := updateWhere (fun p => p.codeHash = .sha256 code)
      (fun p => { p with consumedAt := some env.now }) db.executorPairings }

def pairExecutor (env : Env) (code token : String) : TaskDb → Except Err Uuid × TaskDb :=
  transaction fun db =>
    match openPairing code env.now db with
    | none => .error (.keyError "pairing")
    | some pairing =>
      .ok (env.uuid db.desktopExecutors.length, pairExecutorWrite env code token pairing db)

/-- `text.strip()`. -/
def strip (text : String) : String :=
  String.ofList ((((text.toList.dropWhile isSpace).reverse).dropWhile isSpace).reverse)

def heartbeatExecutor (env : Env) (executorId : Uuid) (token : String) (capabilities : List String) :
    TaskDb → Except Err Unit × TaskDb :=
  andThen (query (executor executorId token)) fun e =>
    if ∃ c ∈ capabilities, strip c ≠ "" ∧ strip c ∉ e.capabilities then
      query fun _ => .error
        (.valueError "Executor heartbeat cannot add capabilities beyond pairing approval.")
    else transaction fun db => .ok ((), { db with
      desktopExecutors := updateWhere (fun e => e.id = executorId)
        (fun e => { e with lastSeenAt := some env.now }) db.desktopExecutors })

/-- `UPDATE desktop_executors SET status='revoked' WHERE p AND status='active'`, which must change
one row. The update of no row commits before the error is raised. -/
def revoke (executorId : Uuid) (p : Executor → Prop) [DecidablePred p] :
    TaskDb → Except Err Unit × TaskDb :=
  andThen (transaction fun db => .ok
    (db.desktopExecutors.countP fun e => e.id = executorId ∧ p e ∧ e.status = .active, { db with
      desktopExecutors := updateWhere (fun e => e.id = executorId ∧ p e ∧ e.status = .active)
        (fun e => { e with status := .revoked }) db.desktopExecutors }))
    fun rowcount => query fun _ => if rowcount = 1 then .ok () else .error (.keyErrorId executorId)

def revokeExecutor (executorId : Uuid) (accountId : String) : TaskDb → Except Err Unit × TaskDb :=
  revoke executorId fun e => e.accountId = accountId

def revokeExecutorWithToken (executorId : Uuid) (token : String) :
    TaskDb → Except Err Unit × TaskDb :=
  revoke executorId fun e => e.tokenHash = .sha256 token

/-! ### The system of calls -/

inductive Call
  | create (env : Env) (accountId workspaceId title objective : String) (requiresApproval : Bool)
      (steps : List StepInput) (approvalMode : ApprovalMode)
  | createResearch (env : Env) (canonical : String → String)
      (accountId workspaceId title question : String) (sources : List String)
  | requestApproval (env : Env) (taskId : Uuid) (accountId : String)
  | decide (env : Env) (taskId : Uuid) (accountId : String) (approved : Bool) (note source : String)
  | decideForExecutor (env : Env) (executorId : Uuid) (token : String) (taskId : Uuid)
      (approved : Bool) (note : String)
  | cancel (env : Env) (taskId : Uuid) (accountId : String)
  | retryTask (env : Env) (taskId : Uuid) (accountId : String)
  | claimOne (env : Env) (workerId : String) (leaseSeconds : ℤ) (kinds : List ExecutorKind)
  | claimForExecutor (env : Env) (executorId : Uuid) (token : String) (leaseSeconds : ℤ)
      (autoApproveSafe autoApproveLocal : Bool)
  | completeStep (env : Env) (stepId : Uuid) (accountId result : String)
      (artifactKind artifactName : Option String)
  | failStep (env : Env) (stepId : Uuid) (accountId error : String) (retryDelaySeconds : ℤ)
      (retryable : Bool)
  | completeExecutorStep (env : Env) (executorId : Uuid) (token : String) (stepId : Uuid)
      (result : String)
  | failExecutorStep (env : Env) (executorId : Uuid) (token : String) (stepId : Uuid)
      (error : String)
  | heartbeatExecutorStep (env : Env) (executorId : Uuid) (token : String) (stepId : Uuid)
      (leaseSeconds : ℤ)
  | appendExecutorProgress (env : Env) (executorId : Uuid) (token : String) (stepId : Uuid)
      (message : String)
  | appendEvent (env : Env) (taskId : Uuid) (type : String) (payload : Payload)
  | createArtifact (env : Env) (taskId : Uuid) (accountId kind name content : String)
  | addEvidence (env : Env) (taskId : Uuid) (accountId url : String) (title : Option String)
  | updateEvidence (evidenceId taskId : Uuid) (status : String) (title : Option String)
  | createExecutorPairing (env : Env) (code accountId name : String) (capabilities : List String)
  | pairExecutor (env : Env) (code token : String)
  | heartbeatExecutor (env : Env) (executorId : Uuid) (token : String) (capabilities : List String)
  | revokeExecutor (executorId : Uuid) (accountId : String)
  | revokeExecutorWithToken (executorId : Uuid) (token : String)

/-- What a call returns, as far as the control plane reads it. -/
inductive Reply
  | none
  | claim (claimed : Option Claimed)
  | outcome (outcome : Outcome)
  deriving DecidableEq

/-- A call with its result turned into a reply. -/
def replying {β : Type} (f : β → Reply) (r : Except Err β × TaskDb) : Except Err Reply × TaskDb :=
  (r.1.map f, r.2)

/-- The call on the tables: its reply or error, and the tables after it. -/
def exec (db : TaskDb) : Call → Except Err Reply × TaskDb
  | .create env a w t o r ss m => replying (fun _ => .none) (create env a w t o r ss m db)
  | .createResearch env f a w t q ss =>
    replying (fun _ => .none) (createResearch env f a w t q ss db)
  | .requestApproval env t a => replying (fun _ => .none) (requestApproval env t a db)
  | .decide env t a ok n s => replying (fun _ => .none) (decide env t a ok n s db)
  | .decideForExecutor env e k t ok n =>
    replying (fun _ => .none) (decideForExecutor env e k t ok n db)
  | .cancel env t a => replying (fun _ => .none) (cancel env t a db)
  | .retryTask env t a => replying (fun _ => .none) (retryTask env t a db)
  | .claimOne env w l ks => replying .claim (claimOne env w l ks db)
  | .claimForExecutor env e k l safe loc => replying .claim (claimForExecutor env e k l safe loc db)
  | .completeStep env s a r ak an => replying (fun _ => .none) (completeStep env s a r ak an db)
  | .failStep env s a e d r => replying .outcome (failStep env s a e d r db)
  | .completeExecutorStep env e k s r =>
    replying (fun _ => .none) (completeExecutorStep env e k s r db)
  | .failExecutorStep env e k s err => replying .outcome (failExecutorStep env e k s err db)
  | .heartbeatExecutorStep env e k s l =>
    replying (fun _ => .none) (heartbeatExecutorStep env e k s l db)
  | .appendExecutorProgress env e k s m =>
    replying (fun _ => .none) (appendExecutorProgress env e k s m db)
  | .appendEvent env t ty p => replying (fun _ => .none) (appendEvent env t ty p db)
  | .createArtifact env t a k n c => replying (fun _ => .none) (createArtifact env t a k n c db)
  | .addEvidence env t a u ti => replying (fun _ => .none) (addEvidence env t a u ti db)
  | .updateEvidence e t s ti => replying (fun _ => .none) (updateEvidence e t s ti db)
  | .createExecutorPairing env c a n cs =>
    replying (fun _ => .none) (createExecutorPairing env c a n cs db)
  | .pairExecutor env c k => replying (fun _ => .none) (pairExecutor env c k db)
  | .heartbeatExecutor env e k cs => replying (fun _ => .none) (heartbeatExecutor env e k cs db)
  | .revokeExecutor e a => replying (fun _ => .none) (revokeExecutor e a db)
  | .revokeExecutorWithToken e k => replying (fun _ => .none) (revokeExecutorWithToken e k db)

def step (db : TaskDb) (call : Call) : TaskDb := (exec db call).2

/-- The step that a reply hands out: the claim of a step carries the owner of its lease. -/
def leasedBy : Except Err Reply → Option Uuid
  | .ok (.claim (some c)) => if c.leaseOwner.isSome then some c.stepId else none
  | _ => none

/-- The step that a call moves to `running`. -/
def started (db : TaskDb) (call : Call) : Option Uuid := leasedBy (exec db call).1

end Smara.TaskStore.Calls
