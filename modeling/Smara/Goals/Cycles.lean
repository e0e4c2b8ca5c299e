import Mathlib.Data.List.Sort
import Smara.Goals.Actions

/-! # The cycles of a goal

The calls by which a supervisor runs a goal in cycles. `claim` leases a queued goal for one cycle and
returns it; the worker of the cycle shows this `Snapshot` with its calls: `attach`, `reserve`,
`progress`, `pending`, `consumeResponse` and `finish`. The user answers with `respond`. `recover`
releases what a dead supervisor held, and `interactive` announces work outside the ledger.

The `_ok` lemmas list what a call that succeeds has found and written. -/

namespace Smara.Goals.Cycles

open Lib.Table Lib.Transaction
open TaskStore.Schema (Uuid Time seconds)
open Goals.Schema Goals.Schema.GoalDb Goals.Spec Goals.Actions

variable {workspaceKey : String → String}

/-- What the ledger reads of the goal that a worker has claimed. -/
structure Snapshot where
  id : String
  lease : Uuid
  deriving DecidableEq

/-- `WHERE id=? AND lease=?` -/
def Snapshot.Holds (s : Snapshot) (g : Goal) : Prop := g.id = s.id ∧ g.lease = some s.lease

instance (s : Snapshot) (g : Goal) : Decidable (s.Holds g) := inferInstanceAs (Decidable (_ ∧ _))

/-! ### Claims -/

def Leased (key : String) (db : GoalDb) : Prop :=
  ∃ g ∈ db.goals, g.workspaceKey = key ∧ g.lease ≠ none

instance (key : String) (db : GoalDb) : Decidable (Leased key db) :=
  inferInstanceAs (Decidable (∃ g ∈ db.goals, _))

def Busy (key : String) (now : Time) (db : GoalDb) : Prop :=
  ∃ r ∈ lookup Interactive.key key db.interactive, now - seconds 10 < r.heartbeat ∧ r.busy = true

instance (key : String) (now : Time) (db : GoalDb) : Decidable (Busy key now db) :=
  inferInstanceAs (Decidable (∃ r ∈ lookup Interactive.key key db.interactive, _))

/-- One of the limits of the goal is reached. -/
def Exhausted (g : Goal) : Prop :=
  g.spec.maxCycles ≤ g.cycles ∨ g.spec.maxRequests ≤ g.requests ∨
    g.spec.maxTokenEstimate ≤ g.tokenEstimate

instance (g : Goal) : Decidable (Exhausted g) := inferInstanceAs (Decidable (_ ∨ _ ∨ _))

/-- The goals that may be claimed, in the order in which they are due. -/
def candidates (now : Time) (identity : Option String) (db : GoalDb) : List Goal :=
  (db.goals.filter fun g => g.state = .queued ∧ g.lease = none ∧ g.due ≤ now ∧
    ∀ id ∈ identity, g.id = id).insertionSort fun g g' => g.due ≤ g'.due

def spent (env : Env workspaceKey) (id : String) (db : GoalDb) : GoalDb :=
  event id (.state .paused) { summary := "Cumulative goal budget reached" } env.now
    (db.updGoals (fun g => g.id = id)
      fun g => { g with state := .paused, detail := "Cumulative goal budget reached" })

/-- `Starting cycle … of …` -/
def startingCycle (g : Goal) : String :=
  "Starting cycle " ++ toString (g.cycles + 1) ++ " of " ++ toString g.spec.maxCycles

def inCycle (env : Env workspaceKey) (lease : Uuid) (detail : String) (g : Goal) : Goal :=
  { g with
    state := .running
    lease := some lease
    cycles := g.cycles + 1
    detail := detail
    updated := env.now }

def granted (env : Env workspaceKey) (lease : Uuid) (goal : Goal) (db : GoalDb) : GoalDb :=
  event goal.id .cycleStarted { summary := startingCycle goal } env.now
    (db.updGoals (fun g => g.id = goal.id) (inCycle env lease (startingCycle goal)))

/-- The loop of `claim` over its candidates. -/
def claimFrom (env : Env workspaceKey) (lease : Uuid) : List Goal → GoalDb → Option Goal × GoalDb
  | [], db => (none, db)
  | goal :: rows, db =>
    let key := workspaceKey goal.spec.workspace
    if Leased key db then claimFrom env lease rows db
    else if Busy key env.now db then claimFrom env lease rows db
    else if Exhausted goal then claimFrom env lease rows (spent env goal.id db)
    else (some { goal with lease := some lease, cycles := goal.cycles + 1, state := .running },
      granted env lease goal db)

def claim (env : Env workspaceKey) (lease : Uuid) (identity : Option String) (db : GoalDb) :
    Except Err (Option Goal × GoalDb) :=
  .ok (claimFrom env lease (candidates env.now identity db) db)

/-! ### The calls of a worker -/

def attach (env : Env workspaceKey) (goal : Snapshot) (sessionId : String) (turnId : Option String)
    (db : GoalDb) : Except Err (Unit × GoalDb) :=
  if (∃ g ∈ db.goals, goal.Holds g) then
    .ok ((), db.updGoals goal.Holds fun g =>
      { g with sessionId := some sessionId, turnId := turnId, updated := env.now })
  else .error (.runtimeError "Goal lease changed")

/-- The refusal of a reservation: the goal is paused, and its limits are recorded. -/
def refused (env : Env workspaceKey) (row : Goal) (db : GoalDb) : GoalDb :=
  (db.updGoals (fun g => g.id = row.id) fun g =>
    { g with
      state := .paused
      detail := "Cumulative goal inference budget reached; extend its limits before resuming"
      updated := env.now }).setBlocked row.id
    (some ⟨row.spec.maxRequests, row.spec.maxTokenEstimate⟩)

def reserved (id : String) (estimate : ℤ) (db : GoalDb) : GoalDb :=
  db.updGoals (fun g => g.id = id) fun g =>
    { g with requests := g.requests + 1, tokenEstimate := g.tokenEstimate + estimate }

def OverBudget (row : Goal) (estimate : ℤ) : Prop :=
  row.spec.maxRequests ≤ row.requests ∨ row.spec.maxTokenEstimate < row.tokenEstimate + estimate

instance (row : Goal) (estimate : ℤ) : Decidable (OverBudget row estimate) :=
  inferInstanceAs (Decidable (_ ∨ _))

/-- The transaction of `reserve`: whether the budget is exhausted. -/
def reserveWrite (env : Env workspaceKey) (goal : Snapshot) (estimate : ℤ) (db : GoalDb) :
    Except Err (Bool × GoalDb) := do
  let row ← find goal.id db
  if row.lease ≠ some goal.lease ∨ ¬ row.state.Active then
    .error (.runtimeError "Goal cycle stopped")
  else if OverBudget row estimate then return (true, refused env row db)
  else return (false, reserved row.id estimate db)

/-- **`GoalStore.reserve`**: the refusal is committed before it is raised. -/
def reserve (env : Env workspaceKey) (goal : Snapshot) (estimate : ℤ) :
    GoalDb → Except Err Unit × GoalDb :=
  andThen (transaction (reserveWrite env goal estimate)) fun exhausted => query fun _ =>
    if exhausted then .error (.budgetLimitError "Cumulative goal inference budget reached")
    else .ok ()

def progress (env : Env workspaceKey) (goal : Snapshot) (summary : String) (db : GoalDb) :
    Except Err (Unit × GoalDb) :=
  let summary := String.ofList ((strip summary).toList.take 240)
  if summary = "" then .ok ((), db)
  else if (∃ g ∈ db.goals, goal.Holds g ∧ g.state.Active) then
    .ok ((), event goal.id .activity { summary := summary } env.now
      (db.updGoals (fun g => goal.Holds g ∧ g.state.Active)
        fun g => { g with detail := summary, updated := env.now }))
  else .ok ((), db)

/-! ### Approvals -/

/-- A message of the native session. -/
structure Message where
  id : Json
  method : Method
  params : Json

/-- `value or {}` -/
def orEmpty : Json → Json
  | .null | .bool false | .num 0 | .str "" | .arr [] => .obj []
  | value => value

def newRequest (env : Env workspaceKey) (fresh : Uuid) (goal : Snapshot) (message : Message) :
    Request where
  id := fresh
  goalId := goal.id
  lease := goal.lease
  nativeId := message.id
  method := message.method
  params := orEmpty message.params
  response := none
  state := .pending
  created := env.now

def pending (env : Env workspaceKey) (fresh : Uuid) (goal : Snapshot) (message : Message)
    (db : GoalDb) : Except Err (Uuid × GoalDb) :=
  let inserted := { db with goalRequests := db.goalRequests ++ [newRequest env fresh goal message] }
  .ok (fresh, event goal.id (.state .awaitingApproval)
    { summary := "Respond to the approval in Smara Desktop", requestId := some fresh } env.now
    (inserted.updGoals (fun g => goal.Holds g ∧ g.state = .running) fun g =>
      { g with
        state := .awaitingApproval
        detail := "Waiting for your approval in the chat"
        updated := env.now }))

/-- `value.get(name)`, `none` where `value` is no object or has no such member -/
def member (name : String) : Json → Option Json
  | .obj members => (members.find? fun m => m.1 = name).map Prod.snd
  | _ => none

def approvalResponse (method : Method) (params : Json) (allow : Bool) : Except Err Json :=
  match method with
  | .commandExecution | .fileChange =>
    .ok (.obj [("decision", .str (if allow then "accept" else "decline"))])
  | .permissions =>
    match member "permissions" params with
    | some (.obj permissions) => do
      require (∀ p ∈ permissions, p.1 = "network" ∨ p.1 = "fileSystem")
        "Unsupported native permissions"
      return .obj [("permissions", .obj (if allow then permissions else [])), ("scope", .str "turn")]
    | _ => .error (.valueError "Unsupported native permissions")
  | .elicitation =>
    let schema := orEmpty ((member "requestedSchema" params).getD .null)
    let form : Bool := match member "mode" params, member "type" schema, member "properties" schema,
        orEmpty ((member "required" schema).getD .null),
        member "codex_approval_kind" (orEmpty ((member "_meta" params).getD .null)) with
      | some (.str "form"), some (.str "object"), some (.obj []), .obj [], some (.str kind) =>
        decide (kind = "mcp_tool_call")
      | _, _, _, _, _ => false
    if allow && !form then .error (.valueError "This specialized request needs its native client")
    else .ok (.obj [("action", .str (if allow then "accept" else "decline")),
      ("content", if allow then .obj [] else .null), ("_meta", .null)])
  | .requestUserInput | .other _ =>
    .error (.valueError "This request needs user input; pause and provide goal feedback")

/-- The identifiers of the questions, those before first. -/
def questionIds : List Json → List String → Except Err (List String)
  | [], expected => .ok expected
  | question :: questions, expected =>
    match member "id" question with
    | some (.str identity) => do
      require (identity ≠ "" ∧ identity.length ≤ 128 ∧ identity ∉ expected)
        "The native request contains an invalid question identifier"
      questionIds questions (expected ++ [identity])
    | _ => .error (.valueError "The native request contains an invalid question identifier")

def oneAnswer (answers : Json) (identity : String) : Except Err (String × Json) :=
  match (member identity answers).bind (member "answers") with
  | some (.arr [.str text]) => do
    require (strip text ≠ "" ∧ text.length ≤ 10000)
      "Each answer must be non-empty and at most 10000 characters"
    return (identity, .obj [("answers", .arr [.str text])])
  | _ => .error (.valueError "Each answer must be non-empty and at most 10000 characters")

def questionsOf (params : Json) : Except Err (List Json) :=
  match member "questions" params with
  | some (.arr questions) =>
    if 1 ≤ questions.length ∧ questions.length ≤ 100 then .ok questions
    else .error (.valueError "The native request did not contain valid questions")
  | _ => .error (.valueError "The native request did not contain valid questions")

def namesOf : Json → Except Err (List String)
  | .obj members => .ok (members.map Prod.fst)
  | _ => .error (.valueError "Provide an answer for every question")

def userInputResponse (params answers : Json) : Except Err Json := do
  let questions ← questionsOf params
  let given ← namesOf answers
  let expected ← questionIds questions []
  require ((∀ name ∈ given, name ∈ expected) ∧ ∀ name ∈ expected, name ∈ given)
    "Answer every requested question and no others"
  let result ← expected.mapM (oneAnswer answers)
  return .obj [("answers", .obj result)]

def answerable (id : String) (requestId : Uuid) (db : GoalDb) : Option Request :=
  db.goalRequests.find? fun r => r.id = requestId ∧ r.goalId = id ∧ r.state = .pending ∧
    ∃ g ∈ db.goals, g.id = r.goalId ∧ g.lease = some r.lease ∧ g.state = .awaitingApproval

def responseTo (r : Request) (allow : Option Bool) (answers : Option Json) : Except Err Json :=
  match r.method with
  | .requestUserInput =>
    match answers with
    | none => .error (.valueError "Answer every requested question before continuing")
    | some answers => userInputResponse r.params answers
  | method =>
    match allow with
    | none => .error (.valueError "Choose Allow or Deny for this request")
    | some allow => approvalResponse method r.params allow

def answered (env : Env workspaceKey) (id : String) (requestId : Uuid) (response : Json)
    (summary : String) (db : GoalDb) : GoalDb :=
  event id .approvalAnswered { summary := summary, requestId := some requestId } env.now
    (db.updRequests (fun r => r.id = requestId)
      fun r => { r with response := some response, state := .answered })

def respond (env : Env workspaceKey) (id : String) (requestId : Uuid) (allow : Option Bool)
    (answers : Option Json) (db : GoalDb) : Except Err (Unit × GoalDb) :=
  match answerable id requestId db with
  | none => .error (.valueError "This approval has expired or was already answered")
  | some row => do
    let response ← responseTo row allow answers
    let summary := if answers.isSome then "Answered" else if allow = some true then "Allowed" else "Denied"
    return ((), answered env id requestId response summary db)

/-- The answer that a worker may take. -/
def deliverable (goal : Snapshot) (requestId : Uuid) (db : GoalDb) : Option Request :=
  db.goalRequests.find? fun r => r.id = requestId ∧ r.lease = goal.lease ∧ r.state = .answered ∧
    ∃ g ∈ db.goals, g.id = r.goalId ∧ g.lease = some r.lease ∧ g.state.Active

/-- What a delivery writes: the goal runs again when nothing of its lease is open. -/
def delivered (goal : Snapshot) (requestId : Uuid) (db : GoalDb) : GoalDb :=
  let taken := db.updRequests (fun r => r.id = requestId)
    fun r => { r with state := .delivered, response := none }
  if (∃ r ∈ taken.goalRequests, r.lease = goal.lease ∧ r.Open) then taken
  else taken.updGoals (fun g => goal.Holds g ∧ g.state = .awaitingApproval)
    fun g => { g with state := .running, detail := "" }

/-- **`GoalStore.consume_response`**: the id of the native request and the answer to it. -/
def consumeResponse (goal : Snapshot) (requestId : Uuid) (db : GoalDb) :
    Except Err (Option (Json × Json) × GoalDb) :=
  match deliverable goal requestId db with
  | none => .ok (none, db)
  | some row => .ok (some (row.nativeId, row.response.getD .null), delivered goal requestId db)

/-! ### The end of a cycle -/

/-- What a worker reports at the end of its cycle. -/
structure CycleReport where
  checkpoint : Option Checkpoint := none
  state : GoalState
  detail : String
  feedbackIds : List String := []
  failure : Option Failure := none

/-- The checkpoint, the state, the count of stalled cycles and the detail after a cycle, before the
feedback is looked at. -/
def outcome (row : Goal) (report : CycleReport) : Option Checkpoint × GoalState × ℕ × String :=
  let stopped := row.state = .paused ∨ row.state = .stopped
  let state := if stopped then row.state else report.state
  let detail := if stopped then row.detail else report.detail
  match report.checkpoint with
  | none => (row.checkpoint, state, row.stalled, detail)
  | some checkpoint =>
    let same := ∃ old ∈ row.checkpoint, old.completedSteps = checkpoint.completedSteps ∧
      old.evidence = checkpoint.evidence ∧ old.outputs = checkpoint.outputs
    let stalled := if same then row.stalled + 1 else 0
    if state = .queued ∧ 2 ≤ stalled then
      (some checkpoint, .blocked, stalled,
        "Two cycles produced no new recorded progress; add feedback before resuming")
    else (some checkpoint, state, stalled, detail)

/-- The feedback that a report names has been used. -/
def consumed (goal : Snapshot) (feedbackIds : List String) (db : GoalDb) : GoalDb :=
  { db with
    goalFeedback := updateWhere (fun f => f.id ∈ feedbackIds ∧ f.goalId = goal.id)
      (fun f => { f with consumed := true }) db.goalFeedback }

def Waiting (id : String) (db : GoalDb) : Prop :=
  ∃ f ∈ db.goalFeedback, f.goalId = id ∧ f.consumed = false

instance (id : String) (db : GoalDb) : Decidable (Waiting id db) :=
  inferInstanceAs (Decidable (∃ f ∈ db.goalFeedback, _))

/-- The state and the detail at the end: a result is not ready for review while feedback waits. -/
def closing (id : String) (state : GoalState) (detail : String) (db : GoalDb) : GoalState × String :=
  if state = .readyForReview ∧ Waiting id db then
    (.queued, "New user feedback arrived during this cycle; continuing with that feedback")
  else (state, detail)

/-- What the end of a cycle writes. -/
def finished (env : Env workspaceKey) (goal : Snapshot) (row : Goal) (report : CycleReport)
    (db : GoalDb) : GoalDb :=
  let result := outcome row report
  let read := consumed goal report.feedbackIds db
  let close := closing goal.id result.2.1 result.2.2.2 read
  event goal.id (.state close.1)
    { summary := close.2, checkpoint := some result.1, failure := report.failure } env.now
    ((read.updGoals (fun g => g.id = goal.id) fun g =>
      { g with
        lease := none
        turnId := none
        state := close.1
        checkpoint := result.1
        stalled := result.2.2.1
        detail := close.2
        due := env.now + seconds row.spec.intervalSeconds
        updated := env.now }).updRequests
      (fun r => r.lease = goal.lease ∧ r.Open) fun r => { r with state := .expired })

def finish (env : Env workspaceKey) (goal : Snapshot) (report : CycleReport) (db : GoalDb) :
    Except Err (Unit × GoalDb) := do
  let row ← find goal.id db
  if row.lease ≠ some goal.lease then .error (.runtimeError "Stale goal lease")
  else return ((), finished env goal row report db)

/-! ### Interactive work and recovery -/

def interactive (env : Env workspaceKey) (workspace owner : String) (busy : Bool) (db : GoalDb) :
    Except Err (Unit × GoalDb) :=
  let key := workspaceKey workspace
  let previous := lookup Interactive.key key db.interactive
  if busy then do
    require (¬ Leased key db)
      "A goal is working in this project; pause it before starting another turn or shell"
    require (¬ ∃ r ∈ previous, r.owner ≠ owner ∧ r.busy = true ∧ env.now - seconds 10 < r.heartbeat)
      "Another Smara session is working in this project"
    return ((), db.setInteractive ⟨key, owner, true, env.now⟩)
  else if (∃ r ∈ previous, r.owner = owner) then
    .ok ((), db.setInteractive ⟨key, owner, false, env.now⟩)
  else .ok ((), db)

def recoveryEvents (env : Env workspaceKey) (db : GoalDb) : GoalDb :=
  (db.goals.filter fun g => g.lease ≠ none).foldl (fun db g => event g.id .recovery
    { summary := "Supervisor interrupted; saved session retained. Resume explicitly." } env.now db) db

/-- A goal whose supervisor died. -/
def abandoned (g : Goal) : Goal :=
  { g with
    state := if g.state = .stopped then .stopped else .paused
    lease := none
    turnId := none
    detail := "Interrupted supervisor; inspect the saved session before resuming" }

/-- What a recovery leaves: the sends that a crash has interrupted have an uncertain delivery. -/
def recovered (env : Env workspaceKey) (db : GoalDb) : GoalDb :=
  let released := ((recoveryEvents env db).updGoals (fun g => g.lease ≠ none) abandoned).updRequests
    Request.Open fun r => { r with state := .expired }
  { released with
    telegramOutbox := updateWhere (fun m => m.state = .sending)
      (fun m => { m with state := .unknown }) released.telegramOutbox }

def recover (env : Env workspaceKey) (db : GoalDb) : Except Err (Unit × GoalDb) :=
  .ok ((), recovered env db)

end Smara.Goals.Cycles
