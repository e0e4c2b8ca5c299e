import Smara.TaskStore.Calls

/-! # The private local tasks

`LocalTaskStore` keeps the tasks of one Desktop in one file. A mutation takes the lock, reads the file, changes the
tasks and writes all of them back.

* `mutation`: a reading that fails is a reading of no tasks; the reading and the writing keep the first `maxEntries`.
* `create`, `approve`, `claim`, …: the mutations; `Op` and `perform` put them together.
* `perform_cases`: what a mutation can do. -/

namespace Smara.Desktop.LocalTasks

open Lib.Transaction TaskStore.Calls TaskStore.Lifecycle

/-! ### Tasks -/

/-- `LOCAL_TASK_STATUSES` -/
inductive Status
  | draft
  | waitingApproval
  | queued
  | running
  | cancelling
  | reviewRequired
  | completed
  | failed
  | cancelled
  deriving DecidableEq

def Status.name : Status → String
  | .draft => "draft"
  | .waitingApproval => "waiting_approval"
  | .queued => "queued"
  | .running => "running"
  | .cancelling => "cancelling"
  | .reviewRequired => "review_required"
  | .completed => "completed"
  | .failed => "failed"
  | .cancelled => "cancelled"

/-- `LOCAL_TASK_TERMINAL_STATUSES` -/
def terminalStatuses : List Status := [.completed, .failed, .cancelled]

/-- `LOCAL_TASK_TRANSITIONS` -/
def transitions : Status → List Status
  | .draft => [.queued, .waitingApproval, .cancelled]
  | .waitingApproval => [.queued, .cancelled]
  | .queued => [.running, .cancelled]
  | .running => [.cancelling, .reviewRequired, .completed, .failed, .cancelled]
  | .cancelling => [.reviewRequired, .failed, .cancelled]
  | .reviewRequired => [.queued, .waitingApproval, .cancelled]
  | .failed => [.queued, .waitingApproval, .cancelled]
  | .completed => []
  | .cancelled => []

/-- The keys of `LOCAL_SKILLS`. -/
def localSkills : List String :=
  ["local_file_read", "local_file_write", "local_terminal", "local_browser", "local_integration", "local_media",
    "local_graph", "local_python", "local_calculate", "local_semantic_search", "local_git", "local_refactor",
    "local_test_fixer", "sandbox_execute"]

structure Event where
  type : String
  createdAt : String
  message : Option String := none
  deriving DecidableEq

structure Step where
  name : String
  status : String
  createdAt : String
  deriving DecidableEq

structure Artifact where
  id : String
  kind : String
  name : String
  sha256 : Option String
  createdAt : String
  deriving DecidableEq

/-- A payload, by its field `operation` and its text. -/
structure Payload where
  operation : Option String
  text : String
  deriving DecidableEq

structure Task where
  id : String
  sessionId : String
  title : String
  objective : String
  status : Status
  requiresApproval : Bool
  approvalMode : String
  requiredCapability : Option String
  payload : Option Payload
  result : Option String := none
  resultSummary : Option String := none
  error : Option String := none
  runId : Option String := none
  attempt : ℕ := 0
  cancelRequested : Bool := false
  startedAt : Option String := none
  finishedAt : Option String := none
  createdAt : String
  updatedAt : String
  steps : List Step := []
  artifacts : List Artifact := []
  events : List Event
  deriving DecidableEq

/-- The view of a task without its payload. -/
structure Summary where
  id : String
  sessionId : String
  title : String
  objective : String
  status : Status
  requiresApproval : Bool
  requiredCapability : Option String
  result : Option String
  error : Option String
  runId : Option String
  attempt : ℕ
  cancelRequested : Bool
  startedAt : Option String
  finishedAt : Option String
  createdAt : String
  updatedAt : String
  approvalMode : String := "desktop"
  localApprovalMode : String
  deriving DecidableEq

def Task.summary (t : Task) : Summary where
  id := t.id
  sessionId := t.sessionId
  title := t.title
  objective := t.objective
  status := t.status
  requiresApproval := t.requiresApproval
  requiredCapability := t.requiredCapability
  result := t.result
  error := t.error
  runId := t.runId
  attempt := t.attempt
  cancelRequested := t.cancelRequested
  startedAt := t.startedAt
  finishedAt := t.finishedAt
  createdAt := t.createdAt
  updatedAt := t.updatedAt
  localApprovalMode := t.approvalMode

inductive Err
  | valueError (message : String)
  | keyError (id : String)
  | runtimeError (message : String)
  | osError
  deriving DecidableEq

/-- What a call gets from outside: the readings of the clock, the digits of the ids it draws, and what it makes of a
result text. -/
structure Env where
  clock : ℕ → String
  hex : ℕ → String
  proofFromResult : String → String × List Artifact := fun result => (clip 40000 result, [])

def transition (task : Task) (status : Status) : Except Err Task :=
  if status = task.status then .ok task
  else if status ∉ transitions task.status then
    .error (.valueError ("local task cannot transition from " ++ task.status.name ++ " to " ++ status.name))
  else .ok { task with status }

def event (env : Env) (type : String) (message : Option String) (task : Task) : Task :=
  let item : Event := ⟨clip 120 type, env.clock 9, (message.filter (· ≠ "")).map (clip 500)⟩
  { task with events := (task.events ++ [item]).drop (task.events.length + 1 - 64) }

def cleanText (value field : String) (limit : Option ℕ) : Except Err String :=
  let text := strip value
  if text = "" then .error (.valueError (field ++ " is required"))
  else match limit with
    | some limit =>
      if limit < text.length then
        .error (.valueError (field ++ " exceeds the " ++ toString limit ++ " character limit"))
      else .ok text
    | none => .ok text

/-! ### The file -/

/-- A reading of the file that does not give its contents. -/
inductive Fault
  | absent
  | osError
  | notJson
  deriving DecidableEq

/-- The outcomes of the system calls of a mutation. -/
structure Disk where
  locked : Bool := true
  fault : Option Fault := none
  written : Bool := true
  deriving DecidableEq

/-- `LocalTaskStore(path, max_entries)` -/
structure LocalTaskStore where
  maxEntries : ℕ
  bounds : 10 ≤ maxEntries ∧ maxEntries ≤ 200

def LocalTaskStore.new (maxEntries : ℕ) : LocalTaskStore :=
  ⟨max 10 (min maxEntries 200), Nat.le_max_left _ _, Nat.max_le.mpr ⟨by decide, Nat.min_le_right _ _⟩⟩

section Mutations
variable (store : LocalTaskStore) (disk : Disk)

def read (file : List Task) : List Task :=
  match disk.fault with
  | some _ => []
  | none => file.take store.maxEntries

/-- `_mutation`: the file is written if the body does not raise. -/
def mutation {β : Type} (body : List Task → Except Err (β × List Task)) (file : List Task) :
    Except Err β × List Task :=
  if disk.locked then
    match body (read store disk file) with
    | .error e => (.error e, file)
    | .ok (b, tasks) => if disk.written then (.ok b, tasks.take store.maxEntries) else (.error .osError, file)
  else (.error (.runtimeError "The private task store is busy; try again."), file)

/-- The first task that `p` holds of is changed in place. -/
def change (p : Task → Bool) (f : Task → Except Err Task) (tasks : List Task) :
    Except Err (Option Task × List Task) :=
  match tasks.find? p with
  | none => .ok (none, tasks)
  | some task =>
    match f task with
    | .error e => .error e
    | .ok task' => .ok (some task', tasks.set (tasks.findIdx p) task')

def onTask (taskId : String) (f : Task → Except Err Task) (tasks : List Task) : Except Err (Summary × List Task) :=
  match change (fun t => t.id = taskId) f tasks with
  | .error e => .error e
  | .ok (none, _) => .error (.keyError taskId)
  | .ok (some task, tasks) => .ok (task.summary, tasks)

/-! ### The mutations -/

/-- The arguments of `create`. -/
structure Draft where
  title : String
  objective : String
  sessionId : Option String := none
  requiresApproval : Bool := true
  approvalMode : String := "ask"
  requiredCapability : Option String := none
  payload : Option Payload := none
  deriving DecidableEq

def Draft.isDelete (d : Draft) (capability : Option String) : Prop :=
  capability = some "local_file_write" ∧ ∃ payload ∈ d.payload, payload.operation = some "delete"

instance (d : Draft) (capability : Option String) : Decidable (d.isDelete capability) :=
  inferInstanceAs (Decidable (_ ∧ _))

def cleanCapability : Option String → Except Err (Option String)
  | none => .ok none
  | some capability =>
    match cleanText capability "required_capability" (some 80) with
    | .error e => .error e
    | .ok capability =>
      if capability ∉ localSkills then
        .error (.runtimeError ("Local capability '" ++ capability ++ "' has no installed skill contract."))
      else .ok (some capability)

/-- The task that `create` puts into the file. -/
def newTask (env : Env) (d : Draft) : Except Err Task :=
  match cleanText d.title "title" (some 160), cleanText d.objective "objective" none with
  | .error e, _ => .error e
  | _, .error e => .error e
  | .ok title, .ok objective =>
    if d.approvalMode ≠ "ask" ∧ d.approvalMode ≠ "auto" then
      .error (.valueError "approval_mode must be 'ask' or 'auto'")
    else match cleanCapability d.requiredCapability with
      | .error e => .error e
      | .ok requiredCapability =>
        if ∃ payload ∈ d.payload, 64 * 1024 < payload.text.utf8ByteSize then
          .error (.valueError "payload exceeds the 64 KB limit")
        else
          let now := env.clock 0
          let needsApproval := d.isDelete requiredCapability ∨ d.requiresApproval ∧ d.approvalMode = "ask"
          .ok {
            id := "local_" ++ clip 20 (env.hex 0)
            sessionId := clip 160 ((d.sessionId.filter (· ≠ "")).getD ("local-session-" ++ clip 12 (env.hex 1)))
            title
            objective
            status := if needsApproval then .waitingApproval else .queued
            requiresApproval := needsApproval
            approvalMode := d.approvalMode
            requiredCapability
            payload := d.payload
            createdAt := now
            updatedAt := now
            events := [⟨"local.task.created", now, none⟩] }

def create (env : Env) (d : Draft) (file : List Task) : Except Err Summary × List Task :=
  match newTask env d with
  | .error e => (.error e, file)
  | .ok task =>
    mutation store disk (fun tasks => .ok (task.summary, task :: tasks.filter fun t => t.id ≠ task.id)) file

def updateTask (env : Env) (status : Status) (result error event' : Option String) (task : Task) : Except Err Task := do
  let task ← transition task status
  let task := { task with
    updatedAt := env.clock 0
    result := (result.map (clip 40000)).or task.result
    error := (error.map (clip 2000)).or task.error }
  .ok (match event'.filter (· ≠ "") with
    | some type => event env type none task
    | none => task)

def update (env : Env) (taskId : String) (status : Status) (result error event : Option String) :
    List Task → Except Err Summary × List Task :=
  mutation store disk (onTask taskId (updateTask env status result error event))

def approveTask (env : Env) (task : Task) : Except Err Task :=
  if task.status ∈ [.waitingApproval, .reviewRequired, .failed] then do
    let type := if task.status = .waitingApproval then "local.task.approved" else "local.task.retry_approved"
    let task ← transition task .queued
    .ok (event env type none { task with error := none, cancelRequested := false, updatedAt := env.clock 0 })
  else if task.status ∉ [.queued, .running, .cancelling, .completed] then
    .error (.valueError ("local task cannot be approved from " ++ task.status.name))
  else .ok task

def approve (env : Env) (taskId : String) : List Task → Except Err Summary × List Task :=
  mutation store disk (onTask taskId (approveTask env))

def claimTask (env : Env) (task : Task) : Except Err Task := do
  let task ← transition task .running
  let now := env.clock 0
  .ok (event env "local.task.started" none { task with
    runId := some ("run_" ++ clip 20 (env.hex 0))
    attempt := task.attempt + 1
    cancelRequested := false
    startedAt := some now
    finishedAt := none
    updatedAt := now
    steps := [] })

def claim (env : Env) (taskId : Option String) : List Task → Except Err (Option Task) × List Task :=
  mutation store disk (change (fun t => t.status = .queued ∧ (taskId = none ∨ taskId = some t.id)) (claimTask env))

def progressTask (env : Env) (message : String) (task : Task) : Except Err Task :=
  if task.status ∉ [.running, .cancelling] then .ok task
  else
    let now := env.clock 0
    let steps := task.steps ++ [⟨message, "running", now⟩]
    .ok (event env "local.task.progress" (some message)
      { task with steps := steps.drop (steps.length - 64), updatedAt := now })

def progress (env : Env) (taskId message : String) (file : List Task) : Except Err Summary × List Task :=
  match cleanText message "progress" (some 500) with
  | .error e => (.error e, file)
  | .ok message => mutation store disk (onTask taskId (progressTask env message)) file

def completeTask (env : Env) (result : String) (task : Task) : Except Err Task := do
  let (summary, artifacts) := env.proofFromResult result
  let task ← transition task .completed
  let now := env.clock 0
  .ok (event env "local.task.completed" none { task with
    result := some (clip 40000 result)
    resultSummary := some summary
    error := none
    cancelRequested := false
    finishedAt := some now
    updatedAt := now
    artifacts })

def complete (env : Env) (taskId result : String) : List Task → Except Err Summary × List Task :=
  mutation store disk (onTask taskId (completeTask env result))

def failTask (env : Env) (error : String) (interrupted : Bool) (task : Task) : Except Err Task := do
  let task ← transition task (if interrupted then .reviewRequired else .failed)
  let now := env.clock 0
  .ok (event env (if interrupted then "local.task.interrupted" else "local.task.failed") none { task with
    error := some (clip 2000 error)
    finishedAt := some now
    updatedAt := now
    cancelRequested := false })

def fail (env : Env) (taskId error : String) (interrupted : Bool) : List Task → Except Err Summary × List Task :=
  mutation store disk (onTask taskId (failTask env error interrupted))

/-- The loop body of `recover_interrupted`. -/
def recoverTask (env : Env) (task : Task) : Except Err Task :=
  if task.status ∉ [.running, .cancelling] then .ok task
  else do
    let task ← transition task .reviewRequired
    let now := env.clock 0
    .ok (event env "local.task.interrupted" none { task with
      error := some
        "Execution was interrupted. Review and approve a retry; Smara will not replay it automatically."
      cancelRequested := false
      finishedAt := some now
      updatedAt := now })

def recoverInterrupted (env : Env) : List Task → Except Err (List String) × List Task :=
  mutation store disk fun tasks => do
    let recovered := (tasks.filter fun t => t.status ∈ [.running, .cancelling]).map Task.id
    let tasks ← tasks.mapM (recoverTask env)
    .ok (recovered, tasks)

def cancelTask (env : Env) (task : Task) : Except Err Task :=
  if task.status ∈ terminalStatuses then .ok task
  else do
    let (task, type) ←
      if task.status = .running then do
        let task ← transition task .cancelling
        pure ({ task with cancelRequested := true }, "local.task.cancel_requested")
      else if task.status = .cancelling then
        pure ({ task with cancelRequested := true }, "local.task.cancel_requested")
      else do
        let task ← transition task .cancelled
        pure ({ task with cancelRequested := true, finishedAt := some (env.clock 0) }, "local.task.cancelled")
    .ok (event env type none
      { task with error := some "Cancelled on this Desktop.", updatedAt := env.clock 1 })

def cancel (env : Env) (taskId : String) : List Task → Except Err Summary × List Task :=
  mutation store disk (onTask taskId (cancelTask env))

def finishCancelledTask (env : Env) (error : String) (task : Task) : Except Err Task := do
  let task ← if task.status ∉ terminalStatuses then transition task .cancelled else pure task
  let now := env.clock 0
  .ok (event env "local.task.cancelled" none { task with
    error := some (clip 2000 error)
    cancelRequested := true
    finishedAt := some now
    updatedAt := now })

def finishCancelled (env : Env) (taskId error : String) : List Task → Except Err Summary × List Task :=
  mutation store disk (onTask taskId (finishCancelledTask env error))

end Mutations

/-! ### What becomes of one task -/

section Task
variable {env : Env} {t t' : Task}

theorem transition_ok {status : Status} (h : transition t status = .ok t') :
    t' = { t with status } ∧ (t.status = status ∨ status ∈ transitions t.status) := by
  unfold transition at h
  split_ifs at h with hsame hlegal
  · cases h
    exact ⟨by rw [hsame], Or.inl hsame.symm⟩
  · cases h
    exact ⟨rfl, Or.inr hlegal⟩

/-- The task keeps its id, and its status changes as the table allows. -/
structure Legal (t t' : Task) : Prop where
  id : t'.id = t.id
  status : t'.status = t.status ∨ t'.status ∈ transitions t.status

theorem legal_of_transition {u : Task} {status : Status} (h : transition t status = .ok u) (hid : t'.id = u.id)
    (hstatus : t'.status = u.status) : Legal t t' ∧ t'.status = status := by
  obtain ⟨rfl, hlegal⟩ := transition_ok h
  refine ⟨⟨hid, ?_⟩, hstatus⟩
  rw [hstatus]
  exact hlegal.imp_left Eq.symm

theorem updateTask_spec {status : Status} {result error event : Option String}
    (h : updateTask env status result error event t = .ok t') : Legal t t' ∧ t'.status = status := by
  obtain ⟨u, hu, h⟩ := bind_ok h
  refine legal_of_transition hu ?_ ?_
  · split at h
    · cases h
      rfl
    · cases h
      rfl
  · split at h
    · cases h
      rfl
    · cases h
      rfl

theorem approveTask_spec (h : approveTask env t = .ok t') :
    Legal t t' ∧ (t' = t ∨ t'.status = .queued) := by
  unfold approveTask at h
  by_cases hopen : t.status ∈ [.waitingApproval, .reviewRequired, .failed]
  · rw [if_pos hopen] at h
    obtain ⟨u, hu, h⟩ := bind_ok h
    cases h
    refine And.imp_right (fun hstatus => ?_) (legal_of_transition hu rfl rfl)
    exact Or.inr hstatus
  · rw [if_neg hopen] at h
    split_ifs at h
    cases h
    exact ⟨⟨rfl, Or.inl rfl⟩, Or.inl rfl⟩

theorem claimTask_spec (h : claimTask env t = .ok t') : Legal t t' ∧ t'.status = .running := by
  obtain ⟨u, hu, h⟩ := bind_ok h
  cases h
  exact legal_of_transition hu rfl rfl

theorem progressTask_spec {message : String} (h : progressTask env message t = .ok t') :
    Legal t t' ∧ t'.status = t.status := by
  unfold progressTask at h
  split_ifs at h
  · cases h
    exact ⟨⟨rfl, Or.inl rfl⟩, rfl⟩
  · cases h
    exact ⟨⟨rfl, Or.inl rfl⟩, rfl⟩

theorem completeTask_spec {result : String} (h : completeTask env result t = .ok t') :
    Legal t t' ∧ t'.status = .completed := by
  obtain ⟨u, hu, h⟩ := bind_ok h
  cases h
  exact legal_of_transition hu rfl rfl

theorem failTask_spec {error : String} {interrupted : Bool} (h : failTask env error interrupted t = .ok t') :
    Legal t t' ∧ t'.status = if interrupted then .reviewRequired else .failed := by
  obtain ⟨u, hu, h⟩ := bind_ok h
  cases h
  exact legal_of_transition hu rfl rfl

theorem recoverTask_spec (h : recoverTask env t = .ok t') :
    Legal t t' ∧ (t' = t ∨ t.status ∈ [.running, .cancelling] ∧ t'.status = .reviewRequired) := by
  unfold recoverTask at h
  by_cases hopen : t.status ∈ [.running, .cancelling]
  · rw [if_neg (not_not.mpr hopen)] at h
    obtain ⟨u, hu, h⟩ := bind_ok h
    cases h
    refine And.imp_right (fun hstatus => ?_) (legal_of_transition hu rfl rfl)
    exact Or.inr ⟨hopen, hstatus⟩
  · rw [if_pos hopen] at h
    cases h
    exact ⟨⟨rfl, Or.inl rfl⟩, Or.inl rfl⟩

theorem cancelTask_spec (h : cancelTask env t = .ok t') :
    Legal t t' ∧ (t'.status ∈ terminalStatuses ∨ t'.status = .cancelling) := by
  unfold cancelTask at h
  by_cases hterminal : t.status ∈ terminalStatuses
  · rw [if_pos hterminal] at h
    cases h
    exact ⟨⟨rfl, Or.inl rfl⟩, Or.inl hterminal⟩
  rw [if_neg hterminal] at h
  by_cases hrunning : t.status = .running
  · rw [if_pos hrunning] at h
    obtain ⟨u, hu, h⟩ := bind_ok h
    cases h
    refine And.imp_right (fun hstatus => ?_) (legal_of_transition hu rfl rfl)
    exact Or.inr hstatus
  rw [if_neg hrunning] at h
  by_cases hcancelling : t.status = .cancelling
  · rw [if_pos hcancelling] at h
    cases h
    exact ⟨⟨rfl, Or.inl rfl⟩, Or.inr hcancelling⟩
  · rw [if_neg hcancelling] at h
    obtain ⟨u, hu, h⟩ := bind_ok h
    cases h
    refine And.imp_right (fun hstatus => ?_) (legal_of_transition hu rfl rfl)
    left
    rw [hstatus]
    decide

theorem finishCancelledTask_spec {error : String} (h : finishCancelledTask env error t = .ok t') :
    Legal t t' ∧ t'.status ∈ terminalStatuses := by
  unfold finishCancelledTask at h
  by_cases hterminal : t.status ∈ terminalStatuses
  · rw [if_neg (not_not.mpr hterminal)] at h
    cases h
    exact ⟨⟨rfl, Or.inl rfl⟩, hterminal⟩
  · rw [if_pos hterminal] at h
    obtain ⟨u, hu, h⟩ := bind_ok h
    cases h
    refine And.imp_right (fun hstatus => ?_) (legal_of_transition hu rfl rfl)
    rw [hstatus]
    decide

end Task

/-! ### Calls -/

inductive Op
  | create (d : Draft)
  | update (taskId : String) (status : Status) (result error event : Option String)
  | approve (taskId : String)
  | claim (taskId : Option String)
  | progress (taskId message : String)
  | complete (taskId result : String)
  | fail (taskId error : String) (interrupted : Bool)
  | recoverInterrupted
  | cancel (taskId : String)
  | finishCancelled (taskId error : String)

/-- A mutation by some process. -/
structure Call where
  op : Op
  env : Env
  disk : Disk

inductive Value
  | summary (s : Summary)
  | claimed (task : Option Task)
  | recovered (ids : List String)

def perform (store : LocalTaskStore) (c : Call) (file : List Task) : Except Err Value × List Task :=
  match c.op with
  | .create d => (create store c.disk c.env d file).map (Except.map .summary) id
  | .update taskId status result error event =>
    (update store c.disk c.env taskId status result error event file).map (Except.map .summary) id
  | .approve taskId => (approve store c.disk c.env taskId file).map (Except.map .summary) id
  | .claim taskId => (claim store c.disk c.env taskId file).map (Except.map .claimed) id
  | .progress taskId message => (progress store c.disk c.env taskId message file).map (Except.map .summary) id
  | .complete taskId result => (complete store c.disk c.env taskId result file).map (Except.map .summary) id
  | .fail taskId error interrupted =>
    (fail store c.disk c.env taskId error interrupted file).map (Except.map .summary) id
  | .recoverInterrupted => (recoverInterrupted store c.disk c.env file).map (Except.map .recovered) id
  | .cancel taskId => (cancel store c.disk c.env taskId file).map (Except.map .summary) id
  | .finishCancelled taskId error =>
    (finishCancelled store c.disk c.env taskId error file).map (Except.map .summary) id

/-! ### What a mutation can do -/

/-- The change of one task by the mutation that addresses it. -/
def Op.Changes (env : Env) (t t' : Task) : Op → Prop
  | .create _ => False
  | .update taskId status result error event => t.id = taskId ∧ updateTask env status result error event t = .ok t'
  | .approve taskId => t.id = taskId ∧ approveTask env t = .ok t'
  | .claim taskId => (t.status = .queued ∧ (taskId = none ∨ taskId = some t.id)) ∧ claimTask env t = .ok t'
  | .progress taskId message => t.id = taskId ∧ ∃ text, cleanText message "progress" (some 500) = .ok text ∧
      progressTask env text t = .ok t'
  | .complete taskId result => t.id = taskId ∧ completeTask env result t = .ok t'
  | .fail taskId error interrupted => t.id = taskId ∧ failTask env error interrupted t = .ok t'
  | .recoverInterrupted => False
  | .cancel taskId => t.id = taskId ∧ cancelTask env t = .ok t'
  | .finishCancelled taskId error => t.id = taskId ∧ finishCancelledTask env error t = .ok t'

/-- The tasks that a mutation looks for. -/
def Op.selects (t : Task) : Op → Bool
  | .create _ => false
  | .update taskId _ _ _ _ => t.id = taskId
  | .approve taskId => t.id = taskId
  | .claim taskId => t.status = .queued ∧ (taskId = none ∨ taskId = some t.id)
  | .progress taskId _ => t.id = taskId
  | .complete taskId _ => t.id = taskId
  | .fail taskId _ _ => t.id = taskId
  | .recoverInterrupted => false
  | .cancel taskId => t.id = taskId
  | .finishCancelled taskId _ => t.id = taskId

/-- What a mutation returns after the change of a task. -/
def Op.value (t' : Task) : Op → Value
  | .claim _ => .claimed (some t')
  | _ => .summary t'.summary

/-- What a mutation that does not raise makes of the tasks it has read. -/
inductive Effect (c : Call) (tasks : List Task) : Value → List Task → Prop
  | created {d task} (hop : c.op = .create d) (hnew : newTask c.env d = .ok task) :
    Effect c tasks (.summary task.summary) (task :: tasks.filter fun t => t.id ≠ task.id)
  | changed {pre t t' post} (hsplit : tasks = pre ++ t :: post)
    (hfirst : c.op.selects t = true ∧ ∀ x ∈ pre, c.op.selects x = false) (hchanges : c.op.Changes c.env t t') :
    Effect c tasks (c.op.value t') (pre ++ t' :: post)
  | unclaimed {taskId} (hop : c.op = .claim taskId) : Effect c tasks (.claimed none) tasks
  | recovered {ids tasks'} (hop : c.op = .recoverInterrupted) (hmap : tasks.mapM (recoverTask c.env) = .ok tasks') :
    Effect c tasks (.recovered ids) tasks'

theorem Op.Changes.legal {op : Op} {env : Env} {t t' : Task} (h : op.Changes env t t') : Legal t t' := by
  cases op with
  | create d => exact h.elim
  | update taskId status result error event => exact (updateTask_spec h.2).1
  | approve taskId => exact (approveTask_spec h.2).1
  | claim taskId => exact (claimTask_spec h.2).1
  | progress taskId message =>
    obtain ⟨-, text, -, h⟩ := h
    exact (progressTask_spec h).1
  | complete taskId result => exact (completeTask_spec h.2).1
  | fail taskId error interrupted => exact (failTask_spec h.2).1
  | recoverInterrupted => exact h.elim
  | cancel taskId => exact (cancelTask_spec h.2).1
  | finishCancelled taskId error => exact (finishCancelledTask_spec h.2).1

theorem forall₂_recoverTask {env : Env} {tasks tasks' : List Task} (h : tasks.mapM (recoverTask env) = .ok tasks') :
    List.Forall₂ (fun t t' => recoverTask env t = .ok t') tasks tasks' := by
  induction tasks generalizing tasks' with
  | nil =>
    cases h
    exact .nil
  | cons t tasks ih =>
    rw [List.mapM_cons] at h
    obtain ⟨t', ht, h⟩ := bind_ok h
    obtain ⟨rest, hrest, h⟩ := bind_ok h
    cases h
    exact .cons ht (ih hrest)

section Cases
variable {store : LocalTaskStore} {disk : Disk} {file tasks : List Task}

theorem mutation_cases {β : Type} (store : LocalTaskStore) (disk : Disk) (file : List Task)
    (body : List Task → Except Err (β × List Task)) :
    (∃ e, mutation store disk body file = (.error e, file)) ∨
      ∃ b tasks, disk.locked = true ∧ disk.written = true ∧ body (read store disk file) = .ok (b, tasks) ∧
        mutation store disk body file = (.ok b, tasks.take store.maxEntries) := by
  by_cases hlocked : disk.locked = true
  · cases hbody : body (read store disk file) with
    | error e => exact Or.inl ⟨e, by simp only [mutation, hlocked, hbody, if_true]⟩
    | ok r =>
      by_cases hwritten : disk.written = true
      · exact Or.inr ⟨r.1, r.2, hlocked, hwritten, rfl, by simp only [mutation, hlocked, hbody, hwritten, if_true]⟩
      · exact Or.inl ⟨.osError, by simp [mutation, hlocked, hbody, hwritten]⟩
  · exact Or.inl ⟨_, if_neg hlocked⟩

theorem change_cases {p : Task → Bool} {f : Task → Except Err Task} {b : Option Task} {tasks' : List Task}
    (h : change p f tasks = .ok (b, tasks')) :
    (b = none ∧ tasks' = tasks ∧ ∀ t ∈ tasks, p t = false) ∨
      ∃ pre t t' post, tasks = pre ++ t :: post ∧ (p t = true ∧ ∀ x ∈ pre, p x = false) ∧ f t = .ok t' ∧
        b = some t' ∧ tasks' = pre ++ t' :: post := by
  unfold change at h
  cases hfind : tasks.find? p with
  | none =>
    rw [hfind] at h
    cases h
    exact Or.inl ⟨rfl, rfl, by simpa using hfind⟩
  | some t =>
    rw [hfind] at h
    simp only at h
    cases hf : f t with
    | error e =>
      rw [hf] at h
      cases h
    | ok t' =>
      rw [hf] at h
      cases h
      obtain ⟨hp, pre, post, rfl, hpre⟩ := List.find?_eq_some_iff_append.mp hfind
      refine Or.inr ⟨pre, t, t', post, rfl, ⟨hp, fun x hx => by simpa using hpre x hx⟩, hf, rfl, ?_⟩
      have hindex : (pre ++ t :: post).findIdx p = pre.length := by
        rw [List.findIdx_append, List.findIdx_cons, hp]
        have hnone : pre.findIdx p = pre.length := List.findIdx_eq_length.mpr fun x hx => by simpa using hpre x hx
        rw [hnone, if_neg (by omega)]
        simp
      rw [hindex, List.set_append_right _ _ (Nat.le_refl _), Nat.sub_self]
      rfl

theorem onTask_cases {taskId : String} {f : Task → Except Err Task} {s : Summary} {tasks' : List Task}
    (h : onTask taskId f tasks = .ok (s, tasks')) :
    ∃ pre t t' post, tasks = pre ++ t :: post ∧ (t.id = taskId ∧ ∀ x ∈ pre, x.id ≠ taskId) ∧ f t = .ok t' ∧
      s = t'.summary ∧ tasks' = pre ++ t' :: post := by
  unfold onTask at h
  split at h
  · cases h
  · cases h
  · next task tasks'' hchange =>
    cases h
    rcases change_cases hchange with ⟨hnone, -, -⟩ | ⟨pre, t, t', post, hsplit, hp, hf, hsome, rfl⟩
    · cases hnone
    · obtain rfl := Option.some.inj hsome
      exact ⟨pre, t, task, post, hsplit, by simpa using hp, hf, rfl, rfl⟩

theorem onTask_effect {c : Call} {taskId : String} {f : Task → Except Err Task}
    (hchanges : ∀ t t', t.id = taskId → f t = .ok t' → c.op.Changes c.env t t')
    (hselects : ∀ t, c.op.selects t = decide (t.id = taskId)) (hvalue : ∀ t', c.op.value t' = .summary t'.summary) :
    (∃ e, (mutation store c.disk (onTask taskId f) file).map (Except.map Value.summary) id = (.error e, file)) ∨
      ∃ v tasks, c.disk.locked = true ∧ c.disk.written = true ∧ Effect c (read store c.disk file) v tasks ∧
        (mutation store c.disk (onTask taskId f) file).map (Except.map Value.summary) id =
          (.ok v, tasks.take store.maxEntries) := by
  rcases mutation_cases store c.disk file (onTask taskId f) with ⟨e, heq⟩ | ⟨s, tasks, hlocked, hwritten, hbody, heq⟩
  · exact Or.inl ⟨e, by rw [heq]; rfl⟩
  · obtain ⟨pre, t, t', post, hsplit, ⟨hid, hpre⟩, hf, rfl, rfl⟩ := onTask_cases hbody
    have hfirst : c.op.selects t = true ∧ ∀ x ∈ pre, c.op.selects x = false :=
      ⟨by simpa [hselects] using hid, fun x hx => by simpa [hselects] using hpre x hx⟩
    refine Or.inr ⟨_, _, hlocked, hwritten, .changed hsplit hfirst (hchanges t t' hid hf), ?_⟩
    rw [heq, hvalue]
    rfl

/-- **A mutation** raises and leaves the file, or has one of the effects on what it has read. -/
theorem perform_cases (store : LocalTaskStore) (c : Call) (file : List Task) :
    (∃ e, perform store c file = (.error e, file)) ∨
      ∃ v tasks, c.disk.locked = true ∧ c.disk.written = true ∧ Effect c (read store c.disk file) v tasks ∧
        perform store c file = (.ok v, tasks.take store.maxEntries) := by
  obtain ⟨op, env, disk⟩ := c
  cases op with
  | create d =>
    simp only [perform, create]
    cases hnew : newTask env d with
    | error e => exact Or.inl ⟨e, rfl⟩
    | ok task =>
      rcases mutation_cases store disk file fun tasks =>
        .ok (task.summary, task :: tasks.filter fun t => t.id ≠ task.id) with
        ⟨e, heq⟩ | ⟨s, tasks, hlocked, hwritten, hbody, heq⟩
      · exact Or.inl ⟨e, by simp only [heq]; rfl⟩
      · cases hbody
        exact Or.inr ⟨_, _, hlocked, hwritten, .created rfl hnew, by simp only [heq]; rfl⟩
  | update taskId status result error event =>
    exact onTask_effect (c := ⟨_, env, disk⟩) (fun t t' hid hf => ⟨hid, hf⟩) (fun _ => rfl) fun _ => rfl
  | approve taskId => exact onTask_effect (c := ⟨_, env, disk⟩) (fun t t' hid hf => ⟨hid, hf⟩) (fun _ => rfl) fun _ => rfl
  | claim taskId =>
    simp only [perform, claim]
    rcases mutation_cases store disk file
      (change (fun t => t.status = .queued ∧ (taskId = none ∨ taskId = some t.id)) (claimTask env)) with
      ⟨e, heq⟩ | ⟨b, tasks, hlocked, hwritten, hbody, heq⟩
    · exact Or.inl ⟨e, by rw [heq]; rfl⟩
    · rcases change_cases hbody with ⟨rfl, rfl, -⟩ | ⟨pre, t, t', post, hsplit, hp, hf, rfl, rfl⟩
      · exact Or.inr ⟨_, _, hlocked, hwritten, .unclaimed rfl, by rw [heq]; rfl⟩
      · refine Or.inr ⟨_, _, hlocked, hwritten, .changed hsplit hp ⟨by simpa using hp.1, hf⟩, by rw [heq]; rfl⟩
  | progress taskId message =>
    simp only [perform, progress]
    cases hclean : cleanText message "progress" (some 500) with
    | error e => exact Or.inl ⟨e, rfl⟩
    | ok text => exact onTask_effect (c := ⟨_, env, disk⟩) (fun t t' hid hf => ⟨hid, text, hclean, hf⟩) (fun _ => rfl) fun _ => rfl
  | complete taskId result => exact onTask_effect (c := ⟨_, env, disk⟩) (fun t t' hid hf => ⟨hid, hf⟩) (fun _ => rfl) fun _ => rfl
  | fail taskId error interrupted => exact onTask_effect (c := ⟨_, env, disk⟩) (fun t t' hid hf => ⟨hid, hf⟩) (fun _ => rfl) fun _ => rfl
  | recoverInterrupted =>
    simp only [perform, recoverInterrupted]
    rcases mutation_cases store disk file fun tasks => do
      let recovered := (tasks.filter fun t => t.status ∈ [.running, .cancelling]).map Task.id
      let tasks ← tasks.mapM (recoverTask env)
      .ok (recovered, tasks) with ⟨e, heq⟩ | ⟨ids, tasks, hlocked, hwritten, hbody, heq⟩
    · exact Or.inl ⟨e, by simp only [heq]; rfl⟩
    · cases hmap : (read store disk file).mapM (recoverTask env) with
      | error e =>
        simp only [hmap] at hbody
        cases hbody
      | ok tasks' =>
        simp only [hmap] at hbody
        cases hbody
        exact Or.inr ⟨_, _, hlocked, hwritten, .recovered rfl hmap, by simp only [heq]; rfl⟩
  | cancel taskId => exact onTask_effect (c := ⟨_, env, disk⟩) (fun t t' hid hf => ⟨hid, hf⟩) (fun _ => rfl) fun _ => rfl
  | finishCancelled taskId error => exact onTask_effect (c := ⟨_, env, disk⟩) (fun t t' hid hf => ⟨hid, hf⟩) (fun _ => rfl) fun _ => rfl

theorem read_sublist (store : LocalTaskStore) (disk : Disk) (file : List Task) :
    (read store disk file).Sublist file := by
  unfold read
  split
  · exact List.nil_sublist file
  · exact List.take_sublist _ file

end Cases

end Smara.Desktop.LocalTasks
