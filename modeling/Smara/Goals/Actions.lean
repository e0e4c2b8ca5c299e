import Smara.Goals.Spec

/-! # The user's actions on a goal

`GoalStore.action`: creation, feedback, pause and stop, resume, new limits, acceptance and deletion. An
action runs in one transaction; the functions here are its bodies. `action_ok` lists what an action
that succeeds has written. -/

namespace Smara.Goals.Actions

open Lib.Table Lib.Transaction
open TaskStore.Schema (Uuid Time)
open TaskStore.Report (hex)
open Goals.Schema Goals.Schema.GoalDb Goals.Spec

variable {workspaceKey : String → String}

/-- `request.get(…) or uuid.uuid4().hex` -/
def orDrawn (given : Option String) (fresh : Uuid) : String :=
  match given with
  | none | some "" => hex fresh
  | some id => id

/-- `GoalStore.decode` of the row with the id. -/
def find (id : String) (db : GoalDb) : Except Err Goal :=
  match db.goal id with
  | some row => .ok row
  | none => .error (.valueError "Goal not found")

def ValidIdentity (host : Host workspaceKey) (identity : String) : Prop :=
  identity ≠ "" ∧ identity.toList.all host.isAlnum ∧ identity.length ≤ 64

instance (host : Host workspaceKey) (identity : String) : Decidable (ValidIdentity host identity) :=
  inferInstanceAs (Decidable (_ ∧ _ ∧ _))

def newGoal (env : Env workspaceKey) (identity : String) (spec : GoalSpec) : Goal where
  id := identity
  spec := spec
  state := .queued
  workspaceKey := workspaceKey spec.workspace
  due := env.now
  created := env.now
  updated := env.now

def insertGoal (env : Env workspaceKey) (identity : String) (spec : GoalSpec) (db : GoalDb) : GoalDb :=
  event identity .created { summary := "Goal queued", access := some spec.sandbox } env.now
    { db with goals := db.goals ++ [newGoal env identity spec] }

def create (env : Env workspaceKey) (fresh : Uuid) (value : SpecRequest) (given : Option String)
    (db : GoalDb) : Except Err (String × GoalDb) := do
  let spec ← goalSpec env.host value
  let identity := orDrawn given fresh
  require (ValidIdentity env.host identity) "Invalid goal identity"
  match db.goal identity with
  | some previous =>
    require (previous.spec = spec) "This creation receipt belongs to a different goal"
    return (identity, db)
  | none => return (identity, insertGoal env identity spec db)

/-- What feedback writes. Feedback invalidates a result pending review. -/
def addFeedback (env : Env workspaceKey) (id feedbackId text : String) (state : GoalState)
    (db : GoalDb) : GoalDb :=
  let inserted := { db with
    goalFeedback := db.goalFeedback ++ [Feedback.mk feedbackId id text env.now false] }
  let logged := event id .feedback { summary := text } env.now
    (inserted.updGoals (fun g => g.id = id) fun g => { g with stalled := 0, updated := env.now })
  if state = .readyForReview then
    logged.updGoals (fun g => g.id = id)
      fun g => { g with state := .queued, due := env.now, updated := env.now }
  else logged

def feedback (env : Env workspaceKey) (fresh : Uuid) (id text : String) (given : Option String)
    (db : GoalDb) : Except Err (String × GoalDb) := do
  let row ← find id db
  require (strip text ≠ "" ∧ text.length ≤ 100000) "Provide feedback up to 100000 characters"
  require (¬ row.state.Terminal) "This goal has finished; create a new goal"
  let feedbackId := orDrawn given fresh
  if (∃ f ∈ db.goalFeedback, f.id = feedbackId) then return (id, db)
  else return (id, addFeedback env id feedbackId (strip text) row.state db)

/-- What a pause or a stop writes. -/
def halted (env : Env workspaceKey) (target : GoalState) (detail id : String) (db : GoalDb) : GoalDb :=
  event id (.state target) { summary := detail } env.now
    (db.updGoals (fun g => g.id = id)
      fun g => { g with state := target, detail := detail, updated := env.now })

def halt (env : Env workspaceKey) (target : GoalState) (detail id : String) (db : GoalDb) :
    Except Err (String × GoalDb) := do
  let row ← find id db
  if row.state.Terminal then return (id, db)
  else return (id, halted env target detail id db)

def pause (env : Env workspaceKey) : String → GoalDb → Except Err (String × GoalDb) :=
  halt env .paused "Paused by user"

def stop (env : Env workspaceKey) : String → GoalDb → Except Err (String × GoalDb) :=
  halt env .stopped "Stopped by user"

def requeued (env : Env workspaceKey) (id : String) (db : GoalDb) : GoalDb :=
  event id .resumed
    { summary := "Resume requested; inspect the saved session before continuing" } env.now
    (db.updGoals (fun g => g.id = id)
      fun g => { g with state := .queued, due := env.now, detail := "", updated := env.now })

def resume (env : Env workspaceKey) (id : String) (db : GoalDb) : Except Err (String × GoalDb) := do
  let row ← find id db
  require (row.lease = none)
    "The current cycle is stopping; resume when it has released its session"
  require (¬ (row.state.Terminal ∨ row.state = .readyForReview))
    "This goal has finished or is ready for review"
  require (¬ (row.spec.maxCycles ≤ row.cycles ∨ row.spec.maxRequests ≤ row.requests))
    "Goal budget exhausted; explicitly extend its limits before resuming"
  require (¬ row.spec.maxTokenEstimate ≤ row.tokenEstimate) "Goal token estimate limit reached"
  require (db.blocked id = none) "Extend the cumulative budget before resuming this goal"
  if row.state = .queued then return (id, db)
  else return (id, requeued env id db)

/-- The specification that `extend` asks for. -/
def extended (spec : GoalSpec) (maxCycles maxRequests maxTokenEstimate : Option ℤ) : SpecRequest :=
  { request spec with
    maxCycles := maxCycles.or (some spec.maxCycles)
    maxRequests := maxRequests.or (some spec.maxRequests)
    maxTokenEstimate := maxTokenEstimate.or (some spec.maxTokenEstimate) }

def Raises (spec : GoalSpec) (limits : Limits) : Prop :=
  limits.maxRequests < spec.maxRequests ∨ limits.maxTokenEstimate < spec.maxTokenEstimate

instance (spec : GoalSpec) (limits : Limits) : Decidable (Raises spec limits) :=
  inferInstanceAs (Decidable (_ ∨ _))

/-- What new limits write: the block of the budget goes if they are above it. -/
def relimited (env : Env workspaceKey) (id : String) (spec : GoalSpec) (db : GoalDb) : GoalDb :=
  let written := db.updGoals (fun g => g.id = id) fun g => { g with spec := spec, updated := env.now }
  event id .limits { summary := "User updated cumulative limits" } env.now
    (if (∃ limits ∈ db.blocked id, Raises spec limits) then written.setBlocked id none else written)

def extend (env : Env workspaceKey) (id : String) (maxCycles maxRequests maxTokenEstimate : Option ℤ)
    (db : GoalDb) : Except Err (String × GoalDb) := do
  let row ← find id db
  require (¬ (row.lease ≠ none ∨ row.state.Terminal)) "Pause this goal before changing its limits"
  let spec ← goalSpec env.host (extended row.spec maxCycles maxRequests maxTokenEstimate)
  return (id, relimited env id spec db)

/-! ### Acceptance -/

/-- `path.lower().endswith(".pdf")` -/
def isPdf (path : String) : Bool := (path.toList.reverse.take 4).map Char.toLower = "fdp.".toList

/-- The files of a report are as they were recorded. -/
def unchangedOutputs (host : Host workspaceKey) (workspace : String) :
    List OutputRecord → Except Err Unit
  | [] => .ok ()
  | saved :: outputs =>
    match host.outputRecord workspace saved.path with
    | none => .error (.valueError "Output changed or disappeared; add feedback for a fresh review")
    | some current => do
      require (current = saved) "Output changed since verification; add feedback for a fresh review"
      unchangedOutputs host workspace outputs

def validateAcceptance (host : Host workspaceKey) (row : Goal) : Except Err Unit := do
  let report := row.checkpoint.bind Checkpoint.outcome
  let outputs := (report.map Outcome.outputs).getD []
  let checks := (report.map Outcome.checks).getD []
  let pdfOutput := outputs.any fun output => isPdf output.path
  require (pdfOutput → checks.any fun c => c.name = "PDF layout preflight" ∧ c.passed)
    "PDF layout evidence is incomplete; continue for a fresh review"
  require (row.spec.taskKind ≠ .general ∨ pdfOutput → ∃ r ∈ report, r.passed)
    "Outcome evidence checks are incomplete; add feedback and continue"
  unchangedOutputs host row.spec.workspace outputs

def completed (env : Env workspaceKey) (id : String) (db : GoalDb) : GoalDb :=
  event id (.state .completed) { summary := "Result accepted by user" } env.now
    (db.updGoals (fun g => g.id = id)
      fun g => { g with state := .completed, updated := env.now, detail := "Accepted by user" })

def accept (env : Env workspaceKey) (id : String) (db : GoalDb) : Except Err (String × GoalDb) := do
  let row ← find id db
  require (row.state = .readyForReview ∧ row.lease = none)
    "Review the result after the goal reaches Ready for review"
  validateAcceptance env.host row
  return (id, completed env id db)

/-! ### Deletion -/

def deleted (id : String) (db : GoalDb) : GoalDb :=
  { db with
    goalRequests := deleteWhere (fun r => r.goalId = id) db.goalRequests
    goalFeedback := deleteWhere (fun f => f.goalId = id) db.goalFeedback
    goalEvents := deleteWhere (fun e => e.goalId = id) db.goalEvents
    goals := deleteWhere (fun g => g.id = id) db.goals }

def delete (id : String) (db : GoalDb) : Except Err (String × GoalDb) := do
  let row ← find id db
  require (¬ (row.lease ≠ none ∨ row.state.Active))
    "This goal still owns a worker lease. Pause or stop it and wait for cleanup before dismissing it."
  return (id, deleted id db)

/-! ### The dispatch -/

/-- A request to `GoalStore.action`; `dismiss` and `clear` are `delete`. -/
inductive Action
  | create (value : SpecRequest) (identity : Option String)
  | feedback (id text : String) (feedbackId : Option String)
  | pause (id : String)
  | stop (id : String)
  | resume (id : String)
  | extend (id : String) (maxCycles maxRequests maxTokenEstimate : Option ℤ)
  | accept (id : String)
  | delete (id : String)

def action (env : Env workspaceKey) (fresh : Uuid) : Action → GoalDb → Except Err (String × GoalDb)
  | .create value identity => create env fresh value identity
  | .feedback id text feedbackId => feedback env fresh id text feedbackId
  | .pause id => pause env id
  | .stop id => stop env id
  | .resume id => resume env id
  | .extend id maxCycles maxRequests maxTokenEstimate =>
    extend env id maxCycles maxRequests maxTokenEstimate
  | .accept id => accept env id
  | .delete id => delete id

/-! ### What an action has written -/

variable {env : Env workspaceKey} {fresh : Uuid} {db db' : GoalDb} {id reply : String}

theorem find_ok {row : Goal} (h : find id db = .ok row) : db.goal id = some row := by
  unfold find at h
  split at h
  · next g hg =>
    cases h
    exact hg
  · cases h

theorem goal_mem {row : Goal} (h : db.goal id = some row) : row ∈ db.goals ∧ row.id = id :=
  ⟨mem_of_lookup h, key_of_lookup h⟩

theorem create_ok {value : SpecRequest} {given : Option String}
    (h : create env fresh value given db = .ok (reply, db')) :
    ∃ spec, goalSpec env.host value = .ok spec ∧ reply = orDrawn given fresh ∧
      ValidIdentity env.host reply ∧
      ((∃ previous, db.goal reply = some previous ∧ previous.spec = spec ∧ db' = db) ∨
        (db.goal reply = none ∧ db' = insertGoal env reply spec db)) := by
  unfold create at h
  obtain ⟨spec, hspec, h⟩ := bind_ok h
  obtain ⟨_, hvalid, h⟩ := bind_ok h
  have hid := require_ok hvalid
  split at h
  · next previous hprev =>
    obtain ⟨_, hsame, h⟩ := bind_ok h
    cases h
    exact ⟨spec, hspec, rfl, hid, Or.inl ⟨previous, hprev, require_ok hsame, rfl⟩⟩
  · next hnone =>
    cases h
    exact ⟨spec, hspec, rfl, hid, Or.inr ⟨hnone, rfl⟩⟩

theorem feedback_ok {text : String} {given : Option String}
    (h : feedback env fresh id text given db = .ok (reply, db')) :
    ∃ row, db.goal id = some row ∧ ¬ row.state.Terminal ∧ reply = id ∧ strip text ≠ "" ∧
      ((∃ f ∈ db.goalFeedback, f.id = orDrawn given fresh) ∧ db' = db ∨
        (¬ ∃ f ∈ db.goalFeedback, f.id = orDrawn given fresh) ∧
          db' = addFeedback env id (orDrawn given fresh) (strip text) row.state db) := by
  unfold feedback at h
  obtain ⟨row, hrow, h⟩ := bind_ok h
  obtain ⟨_, htext, h⟩ := bind_ok h
  obtain ⟨_, hterm, h⟩ := bind_ok h
  refine ⟨row, find_ok hrow, require_ok hterm, ?_⟩
  dsimp only at h
  split at h
  · next hex =>
    cases h
    exact ⟨rfl, (require_ok htext).1, Or.inl ⟨hex, rfl⟩⟩
  · next hnew =>
    cases h
    exact ⟨rfl, (require_ok htext).1, Or.inr ⟨hnew, rfl⟩⟩

theorem halt_ok {target : GoalState} {detail : String}
    (h : halt env target detail id db = .ok (reply, db')) :
    ∃ row, db.goal id = some row ∧ reply = id ∧
      (row.state.Terminal ∧ db' = db ∨
        ¬ row.state.Terminal ∧ db' = halted env target detail id db) := by
  unfold halt at h
  obtain ⟨row, hrow, h⟩ := bind_ok h
  refine ⟨row, find_ok hrow, ?_⟩
  split at h
  · next hterm =>
    cases h
    exact ⟨rfl, Or.inl ⟨hterm, rfl⟩⟩
  · next hterm =>
    cases h
    exact ⟨rfl, Or.inr ⟨hterm, rfl⟩⟩

structure Resumable (db : GoalDb) (row : Goal) : Prop where
  lease : row.lease = none
  state : ¬ (row.state.Terminal ∨ row.state = .readyForReview)
  blocked : db.blocked row.id = none

theorem resume_ok (h : resume env id db = .ok (reply, db')) :
    ∃ row, db.goal id = some row ∧ Resumable db row ∧ reply = id ∧
      (row.state = .queued ∧ db' = db ∨ row.state ≠ .queued ∧ db' = requeued env id db) := by
  unfold resume at h
  obtain ⟨row, hrow, h⟩ := bind_ok h
  obtain ⟨_, hlease, h⟩ := bind_ok h
  obtain ⟨_, hstate, h⟩ := bind_ok h
  obtain ⟨_, -, h⟩ := bind_ok h
  obtain ⟨_, -, h⟩ := bind_ok h
  obtain ⟨_, hblocked, h⟩ := bind_ok h
  obtain rfl := (goal_mem (find_ok hrow)).2
  refine ⟨row, find_ok hrow, ⟨require_ok hlease, require_ok hstate, require_ok hblocked⟩, ?_⟩
  split at h
  · next hq =>
    cases h
    exact ⟨rfl, Or.inl ⟨hq, rfl⟩⟩
  · next hq =>
    cases h
    exact ⟨rfl, Or.inr ⟨hq, rfl⟩⟩

theorem extend_ok {maxCycles maxRequests maxTokenEstimate : Option ℤ}
    (h : extend env id maxCycles maxRequests maxTokenEstimate db = .ok (reply, db')) :
    ∃ row spec, db.goal id = some row ∧ row.lease = none ∧ ¬ row.state.Terminal ∧
      goalSpec env.host (extended row.spec maxCycles maxRequests maxTokenEstimate) = .ok spec ∧
      reply = id ∧ db' = relimited env id spec db := by
  unfold extend at h
  obtain ⟨row, hrow, h⟩ := bind_ok h
  obtain ⟨_, hfree, h⟩ := bind_ok h
  obtain ⟨spec, hspec, h⟩ := bind_ok h
  cases h
  have hfree := not_or.mp (require_ok hfree)
  exact ⟨row, spec, find_ok hrow, not_not.mp hfree.1, hfree.2, hspec, rfl, rfl⟩

theorem accept_ok (h : accept env id db = .ok (reply, db')) :
    ∃ row, db.goal id = some row ∧ row.state = .readyForReview ∧ row.lease = none ∧
      validateAcceptance env.host row = .ok () ∧ reply = id ∧ db' = completed env id db := by
  unfold accept at h
  obtain ⟨row, hrow, h⟩ := bind_ok h
  obtain ⟨_, hready, h⟩ := bind_ok h
  obtain ⟨_, hvalid, h⟩ := bind_ok h
  cases h
  exact ⟨row, find_ok hrow, (require_ok hready).1, (require_ok hready).2, hvalid, rfl, rfl⟩

theorem delete_ok (h : delete id db = .ok (reply, db')) :
    ∃ row, db.goal id = some row ∧ row.lease = none ∧ ¬ row.state.Active ∧ reply = id ∧
      db' = deleted id db := by
  unfold delete at h
  obtain ⟨row, hrow, h⟩ := bind_ok h
  obtain ⟨_, hfree, h⟩ := bind_ok h
  cases h
  have hfree := not_or.mp (require_ok hfree)
  exact ⟨row, find_ok hrow, not_not.mp hfree.1, hfree.2, rfl, rfl⟩

end Smara.Goals.Actions
