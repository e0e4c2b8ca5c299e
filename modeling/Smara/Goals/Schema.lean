import Smara.TaskStore.Report

/-! # The tables of the goal ledger

The rows of the tables that `GoalStore` keeps for goals, their events, feedback and approval requests,
and the statements on them. Ids that callers may choose are texts; leases and request ids are drawn by
`uuid4` only. The values of `goal_meta` are kept by kind: each kind has keys of its own.

* `Host` is what a call reads of the machine it runs on: the file system, and the parts of Python that
  depend on Unicode tables. Paths resolve to paths with the same `workspace_key`.
* `Constraints` are the keys of the schema. A transaction that violates them raises `IntegrityError`
  and leaves the tables alone (`transaction`). -/

namespace Smara.Goals.Schema

open Lib.Table Lib.Transaction
open TaskStore.Schema (Uuid Time seconds)

inductive GoalState
  | queued | running | awaitingApproval | paused | stopped | blocked | readyForReview | completed
  deriving DecidableEq

def GoalState.Terminal (s : GoalState) : Prop := s = .completed ∨ s = .stopped

def GoalState.Active (s : GoalState) : Prop := s = .running ∨ s = .awaitingApproval

instance (s : GoalState) : Decidable s.Terminal := inferInstanceAs (Decidable (_ ∨ _))

instance (s : GoalState) : Decidable s.Active := inferInstanceAs (Decidable (_ ∨ _))

inductive Sandbox
  | readOnly | workspaceWrite
  deriving DecidableEq

inductive TaskKind
  | general | coding | research | mixed
  deriving DecidableEq

structure Requirement where
  id : String
  description : String
  deriving DecidableEq

structure ProjectOptions where
  toolsEnabled : Bool
  workersEnabled : Bool
  browserOrigins : List String
  deriving DecidableEq

structure GoalSpec where
  workspace : String
  objective : String
  successCriteria : String
  profileId : String
  sandbox : Sandbox
  originThreadId : String
  taskKind : TaskKind
  requirements : List Requirement
  minSources : ℤ
  timeSensitive : Bool
  maxOutputTokens : Option ℤ
  maxCycles : ℤ
  maxRequests : ℤ
  maxTokenEstimate : ℤ
  cycleSeconds : ℤ
  intervalSeconds : ℤ
  options : ProjectOptions
  deriving DecidableEq

structure OutputRecord where
  path : String
  sha256 : String
  bytes : ℕ
  deriving DecidableEq

structure Check where
  name : String
  passed : Bool
  detail : String
  deriving DecidableEq

structure Outcome where
  passed : Bool
  checks : List Check
  outputs : List OutputRecord
  elapsedSeconds : Option String
  failedPages : ℕ
  deriving DecidableEq

/-- A checkpoint that is not `{}`. A member that is absent is `none`. -/
structure Checkpoint where
  summary : Option String := none
  nextStep : Option String := none
  completedSteps : Option (List String) := none
  evidence : Option (List String) := none
  outputs : Option (List String) := none
  outcome : Option Outcome := none
  deriving DecidableEq

/-! ### Rows -/

structure Goal where
  id : String
  spec : GoalSpec
  state : GoalState
  workspaceKey : String
  sessionId : Option String := none
  turnId : Option String := none
  lease : Option Uuid := none
  due : Time
  created : Time
  updated : Time
  cycles : ℕ := 0
  requests : ℕ := 0
  tokenEstimate : ℤ := 0
  stalled : ℕ := 0
  checkpoint : Option Checkpoint := none
  detail : String := ""
  deriving DecidableEq

inductive EventKind
  | state (s : GoalState)
  | created | feedback | activity | resumed | limits | cycleStarted | approvalAnswered | recovery
  deriving DecidableEq

structure Failure where
  stage : String
  errorType : String
  context : Option String
  deriving DecidableEq

structure EventBody where
  summary : String
  access : Option Sandbox := none
  requestId : Option Uuid := none
  checkpoint : Option (Option Checkpoint) := none
  failure : Option Failure := none
  deriving DecidableEq

structure GoalEvent where
  seq : ℕ
  goalId : String
  kind : EventKind
  body : EventBody
  created : Time
  deriving DecidableEq

structure Feedback where
  id : String
  goalId : String
  text : String
  created : Time
  consumed : Bool
  deriving DecidableEq

/-- The methods of the native requests that a goal can answer. -/
inductive Method
  | commandExecution | fileChange | permissions | elicitation | requestUserInput
  | other (name : String)
  deriving DecidableEq

inductive Json
  | null
  | bool (b : Bool)
  | num (n : ℤ)
  | str (s : String)
  | arr (items : List Json)
  | obj (members : List (String × Json))

inductive RequestState
  | pending | answered | delivered | expired
  deriving DecidableEq

structure Request where
  id : Uuid
  goalId : String
  lease : Uuid
  nativeId : Json
  method : Method
  params : Json
  response : Option Json
  state : RequestState
  created : Time

/-- The request still waits for its answer or for its delivery. -/
def Request.Open (r : Request) : Prop := r.state = .pending ∨ r.state = .answered

instance (r : Request) : Decidable r.Open := inferInstanceAs (Decidable (_ ∨ _))

/-! ### The values of `goal_meta` -/

structure Limits where
  maxRequests : ℤ
  maxTokenEstimate : ℤ
  deriving DecidableEq

/-- The row of `budget_blocked:{goalId}`; `none` is `null`. -/
structure BudgetBlocked where
  goalId : String
  limits : Option Limits
  deriving DecidableEq

/-- The row of `interactive:{key}`. -/
structure Interactive where
  key : String
  owner : String
  busy : Bool
  heartbeat : Time
  deriving DecidableEq

structure Pairing where
  digest : TaskStore.Schema.Digest
  expires : Time
  deriving DecidableEq

structure Binding where
  bot : String
  userId : ℤ
  chatId : ℤ
  deriving DecidableEq

/-- The row of `telegram_offset:{bot}`. -/
structure Offset where
  bot : String
  value : ℤ
  deriving DecidableEq

inductive Health
  | connected (lastPoll : Time)
  | deliveryUnknown | unavailable
  deriving DecidableEq

/-! ### Messages to and from Telegram -/

/-- A row of `telegram_updates`. -/
structure Receipt where
  bot : String
  updateId : ℤ
  deriving DecidableEq

structure Artifact where
  goalId : String
  path : String
  deriving DecidableEq

inductive DeliveryState
  | pending | sending | sent | unknown | cancelled
  deriving DecidableEq

/-- A row of `telegram_outbox`. -/
structure OutMessage where
  id : ℕ
  bot : String
  chatId : ℤ
  text : String
  artifact : Option Artifact
  state : DeliveryState
  deriving DecidableEq

/-! ### The database -/

/-- The database. `eventSeq` and `outboxSeq` are the rows of `sqlite_sequence`: the last number that
`AUTOINCREMENT` has given. -/
structure GoalDb where
  goals : List Goal := []
  goalEvents : List GoalEvent := []
  eventSeq : ℕ := 0
  goalFeedback : List Feedback := []
  goalRequests : List Request := []
  budgetBlocked : List BudgetBlocked := []
  interactive : List Interactive := []
  telegramUpdates : List Receipt := []
  telegramOutbox : List OutMessage := []
  outboxSeq : ℕ := 0
  telegramOffsets : List Offset := []
  telegramBinding : Option Binding := none
  telegramEventCursor : ℕ := 0
  telegramOptions : Option GoalSpec := none
  telegramLastGoal : Option String := none
  telegramHealth : Option Health := none
  pairing : Option Pairing := none

inductive Err
  | valueError (message : String)
  | osError
  | runtimeError (message : String)
  | budgetLimitError (message : String)
  | integrityError
  deriving DecidableEq

/-- What a call reads of its machine. -/
structure Host (workspaceKey : String → String) where
  /-- `Path(p).is_absolute()` -/
  isAbsolute : String → Bool
  /-- `Path(p).resolve(strict=True)`, `none` if it raises -/
  resolve : String → Option String
  isDir : String → Bool
  /-- `native_outcomes.output_record`, `none` if it raises -/
  outputRecord : String → String → Option OutputRecord
  /-- `str.isalnum` of a character -/
  isAlnum : Char → Bool
  /-- the search of an objective for `today`, `latest`, `current`, `now` or `recent` -/
  mentionsNow : String → Bool
  /-- `native_browser.configured_origins`, the message if it raises -/
  configuredOrigins : List String → Except String Unit
  /-- resolving a path keeps its key -/
  key_resolve : ∀ {p r}, resolve p = some r → workspaceKey r = workspaceKey p

/-- The clock and the machine of one call. -/
structure Env (workspaceKey : String → String) where
  now : Time
  host : Host workspaceKey

/-- The draws of `uuid4`, one after the other; it does not repeat itself. -/
structure Uuids where
  draw : ℕ → Uuid
  distinct : Function.Injective draw

namespace GoalDb

def updGoals (p : Goal → Prop) [DecidablePred p] (f : Goal → Goal) (db : GoalDb) : GoalDb :=
  { db with goals := updateWhere p f db.goals }

def updRequests (p : Request → Prop) [DecidablePred p] (f : Request → Request) (db : GoalDb) :
    GoalDb :=
  { db with goalRequests := updateWhere p f db.goalRequests }

def event (goalId : String) (kind : EventKind) (body : EventBody) (now : Time) (db : GoalDb) :
    GoalDb :=
  { db with
    goalEvents := db.goalEvents ++ [⟨db.eventSeq + 1, goalId, kind, body, now⟩]
    eventSeq := db.eventSeq + 1 }

def goal (db : GoalDb) (id : String) : Option Goal := lookup Goal.id id db.goals

/-- `meta(db, "budget_blocked:" + id)` -/
def blocked (db : GoalDb) (id : String) : Option Limits :=
  (lookup BudgetBlocked.goalId id db.budgetBlocked).bind BudgetBlocked.limits

/-- `set_meta(db, "budget_blocked:" + id, limits)` -/
def setBlocked (id : String) (limits : Option Limits) (db : GoalDb) : GoalDb :=
  { db with
    budgetBlocked := upsert BudgetBlocked.goalId ⟨id, limits⟩
      (fun b => { b with limits := limits }) db.budgetBlocked }

/-- `set_meta(db, "interactive:" + key, record)` -/
def setInteractive (record : Interactive) (db : GoalDb) : GoalDb :=
  { db with interactive := upsert Interactive.key record (fun _ => record) db.interactive }

section Tables
variable (db : GoalDb) (p : Goal → Prop) [DecidablePred p] (f : Goal → Goal)
  (q : Request → Prop) [DecidablePred q] (h : Request → Request)
  (id : String) (kind : EventKind) (body : EventBody) (now : Time) (limits : Option Limits)
  (record : Interactive)

@[simp] theorem updGoals_goals : (db.updGoals p f).goals = updateWhere p f db.goals := rfl
@[simp] theorem updGoals_goalEvents : (db.updGoals p f).goalEvents = db.goalEvents := rfl
@[simp] theorem updGoals_eventSeq : (db.updGoals p f).eventSeq = db.eventSeq := rfl
@[simp] theorem updGoals_goalFeedback : (db.updGoals p f).goalFeedback = db.goalFeedback := rfl
@[simp] theorem updGoals_goalRequests : (db.updGoals p f).goalRequests = db.goalRequests := rfl
@[simp] theorem updGoals_blocked : (db.updGoals p f).blocked id = db.blocked id := rfl
@[simp] theorem updGoals_interactive : (db.updGoals p f).interactive = db.interactive := rfl

@[simp] theorem updRequests_goals : (db.updRequests q h).goals = db.goals := rfl
@[simp] theorem updRequests_goalFeedback : (db.updRequests q h).goalFeedback = db.goalFeedback := rfl
@[simp] theorem updRequests_goalRequests :
    (db.updRequests q h).goalRequests = updateWhere q h db.goalRequests := rfl
@[simp] theorem updRequests_blocked : (db.updRequests q h).blocked id = db.blocked id := rfl
@[simp] theorem updRequests_interactive : (db.updRequests q h).interactive = db.interactive := rfl

@[simp] theorem event_goals : (event id kind body now db).goals = db.goals := rfl
@[simp] theorem event_goal : (event id kind body now db).goal = db.goal := rfl
@[simp] theorem event_goalFeedback : (event id kind body now db).goalFeedback = db.goalFeedback := rfl
@[simp] theorem event_goalRequests : (event id kind body now db).goalRequests = db.goalRequests := rfl
@[simp] theorem event_blocked : (event id kind body now db).blocked = db.blocked := rfl
@[simp] theorem event_interactive : (event id kind body now db).interactive = db.interactive := rfl

@[simp] theorem setBlocked_goals : (db.setBlocked id limits).goals = db.goals := rfl
@[simp] theorem setBlocked_goalFeedback : (db.setBlocked id limits).goalFeedback = db.goalFeedback := rfl
@[simp] theorem setBlocked_goalRequests : (db.setBlocked id limits).goalRequests = db.goalRequests := rfl
@[simp] theorem setBlocked_interactive : (db.setBlocked id limits).interactive = db.interactive := rfl

@[simp] theorem setInteractive_goals : (db.setInteractive record).goals = db.goals := rfl
@[simp] theorem setInteractive_goalFeedback :
    (db.setInteractive record).goalFeedback = db.goalFeedback := rfl
@[simp] theorem setInteractive_goalRequests :
    (db.setInteractive record).goalRequests = db.goalRequests := rfl
@[simp] theorem setInteractive_blocked : (db.setInteractive record).blocked = db.blocked := rfl

end Tables

/-- The primary keys of the schema, except those that `AUTOINCREMENT` gives. -/
structure Constraints (db : GoalDb) : Prop where
  goals : Keyed Goal.id db.goals
  goalFeedback : Keyed Feedback.id db.goalFeedback
  goalRequests : Keyed Request.id db.goalRequests
  budgetBlocked : Keyed BudgetBlocked.goalId db.budgetBlocked
  interactive : Keyed Interactive.key db.interactive
  telegramUpdates : db.telegramUpdates.Nodup
  telegramOffsets : Keyed Offset.bot db.telegramOffsets

theorem constraints_iff (db : GoalDb) : Constraints db ↔
    Keyed Goal.id db.goals ∧ Keyed Feedback.id db.goalFeedback ∧
    Keyed Request.id db.goalRequests ∧ Keyed BudgetBlocked.goalId db.budgetBlocked ∧
    Keyed Interactive.key db.interactive ∧ db.telegramUpdates.Nodup ∧
    Keyed Offset.bot db.telegramOffsets :=
  ⟨fun ⟨a, b, c, d, e, f, g⟩ => ⟨a, b, c, d, e, f, g⟩,
   fun ⟨a, b, c, d, e, f, g⟩ => ⟨a, b, c, d, e, f, g⟩⟩

instance (db : GoalDb) : Decidable db.Constraints := decidable_of_iff _ (constraints_iff db).symm

end GoalDb

def transaction {β : Type} (body : GoalDb → Except Err (β × GoalDb)) :
    GoalDb → Except Err β × GoalDb :=
  commit GoalDb.Constraints .integrityError body

theorem transaction_eq {β : Type} (body : GoalDb → Except Err (β × GoalDb)) (db : GoalDb) :
    (∃ b db', body db = .ok (b, db') ∧ db'.Constraints ∧ transaction body db = (.ok b, db')) ∨
      ∃ e, transaction body db = (.error e, db) := commit_eq _ _ body db

end Smara.Goals.Schema
