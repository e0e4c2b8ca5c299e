import Smara.Harness.Schema
import Smara.Lib.Machine

/-! # The operations of the engine

Each operation is a script over the journal, in the order of its statements. The writer's lock admits
one of them at a time; `cancel`, the one permitted concurrent writer, is what others may do between two
statements (`Disturbance`). `Call` and `Run` are the machine of one session: calls, statements, crashes
and cancellations. -/

namespace Smara.Harness.Engine

open Lib.Table Lib.Scripts
open TaskStore.Schema (Time)
open Goals.Schema (Json)
open Harness.Schema

/-! ### Statements -/

def set (f : State → State) : Engine Unit := put fun j => { j with state := f j.state }

def now : Engine Time := request Ask.clock

/-- `uuid.uuid4().hex` -/
def uuid : Engine String := request Ask.uuid

def workspaceRevision : Engine String := request Ask.revision

def event (type : String) (payload : Dict) : Engine Unit := do
  let createdAt ← now
  put fun j => { j with events := j.events ++ [{ type, payload, createdAt }] }

/-- `Budget(**self.get("budget", asdict(self.budget)))` -/
def budgetOf (host : Host) : Engine Budget := get fun j => j.state.budget.getD host.budget

def elapsedWall : Engine Time := do
  let current ← now
  let s ← get Journal.state
  return max 0 (s.pausedAt.getD current - s.startedWall.getD current - s.pausedSeconds)

/-- The session has had web-only calls alone. -/
def WebOnly (j : Journal) : Prop :=
  j.state.toolProfile = some "research_web" ∧ j.state.fullWorkspaceRevisionRequired = false ∧
    ∀ r ∈ j.calls, r.name ∈ webOnlyTools

instance (j : Journal) : Decidable (WebOnly j) := inferInstanceAs (Decidable (_ ∧ _ ∧ _))

def currentWorkspaceRevision : Engine String := do
  let webOnly ← get fun j => decide (WebOnly j)
  if webOnly then return "web-only:no-workspace-files" else workspaceRevision

def putJson (value : Dict) : Engine String := do
  let stored : Except Err String ← request (Ask.store value)
  match stored with
  | .ok aid => return aid
  | .error e => raise e

/-- The checks of `cancelled`, `paused_at` and the wall time. -/
def admitted (host : Host) : Engine Unit := do
  let cancelled ← get fun j => j.state.cancelled
  require (cancelled = false) (.budgetExceeded "cancelled")
  let paused ← get fun j => j.state.pausedAt
  require (paused = none) (.budgetExceeded "paused")
  let budget ← budgetOf host
  let elapsed ← elapsedWall
  require (elapsed < budget.wallSeconds) (.budgetExceeded "wall_seconds")

/-! ### The start of a session -/

def pause : Engine Unit := do
  let pausedAt ← get fun j => j.state.pausedAt
  if pausedAt = none then do
    let t ← now
    set fun s => { s with pausedAt := some t }
    let elapsed ← elapsedWall
    event "paused" [("elapsed_wall", .num elapsed)]
  else return

def resumeClock : Engine Unit := do
  let pausedAt ← get fun j => j.state.pausedAt
  match pausedAt with
  | none => return
  | some paused => do
    let seconds ← get fun j => j.state.pausedSeconds
    let t ← now
    set fun s => { s with pausedSeconds := seconds + max 0 (t - paused) }
    set fun s => { s with pausedAt := none }
    let elapsed ← elapsedWall
    event "resumed" [("elapsed_wall", .num elapsed)]

/-- The statements that start a session. -/
def started (host : Host) (request : String) (mode : Dict) : Engine Unit := do
  set fun s => { s with request := some request }
  let t ← now
  set fun s => { s with startedWall := some t }
  set fun s => { s with pausedSeconds := 0 }
  set fun s => { s with pausedAt := none }
  set fun s => { s with usage := {} }
  set fun s => { s with budget := some host.budget }
  event "started" ([("request", .str request), ("engine_version", .str "h2-local-2")] ++ mode)

def beginIncremental (host : Host) (request : String) : Engine Unit := do
  let found ← get fun j => j.state.request
  if found = none then started host request [("mode", .str "incremental")]
  else require (found = some request) (.valueError "session objective does not match persisted request")

structure PlannedCall where
  callId : Option String := none
  name : String := ""
  arguments : Json := .obj []
  workspaceId : Option String := none

def PlannedCall.row (host : Host) (position : ℕ) (raw : PlannedCall) : CallRow where
  callId := match raw.callId with
    | none | some "" => host.sessionId ++ "-" ++ toString position
    | some id => id
  position := position
  name := raw.name
  arguments := (asDict raw.arguments).getD [("__invalid__", raw.arguments)]
  workspaceId := match raw.workspaceId with
    | none | some "" => host.workspace
    | some id => id
  mutating := raw.name ∈ mutatingTools ∨ raw.name = "agent_turn"
  state := .pending

def storeCalls (host : Host) : ℕ → List PlannedCall → Engine Unit
  | _, [] => return
  | position, raw :: plan => do
    attempt (Journal.insertCall (raw.row host position))
    storeCalls host (position + 1) plan

def storePlan (host : Host) (request : String) (plan : List PlannedCall) (resume : Bool) :
    Engine Unit :=
  if resume then do
    let found ← get fun j => j.state.request
    require (found ≠ none) (.valueError "uninitialized session")
  else do
    let calls ← get Journal.calls
    require (calls = []) (.valueError "session exists; resume it")
    started host request []
    storeCalls host 0 plan

/-! ### The end of a run -/

/-- The text that an `agent_turn` has left last. -/
def agentAnswer (calls : List CallRow) : String :=
  (calls.filterMap fun r => if r.name = "agent_turn" then r.result else none).foldl
    (fun _ result => ((field "text" result).bind asText).getD "") ""

def finished (status : RunStatus) (unresolved : List String) : Engine Unit :=
  event "finished" [("status", .str status.text), ("unresolved_items", .arr (unresolved.map .str))]

/-- **`finish`**. The list that is read back never equals the tuple, so the event is always written. -/
def finish (status : RunStatus) (receipts : List Dict) (unresolved : List String) :
    Engine RunResult := do
  let calls ← get Journal.inOrder
  let usage ← get fun j => j.state.usage
  let result : RunResult :=
    { status, answer := agentAnswer calls, verification := receipts, usage,
      unresolvedItems := unresolved }
  set fun s => { s with result := some result }
  finished status unresolved
  return result

/-- A call that may have changed the workspace. -/
def Mutated (calls : List CallRow) : Prop :=
  ∃ r ∈ calls, r.mutating ∧ r.state = .completed ∧
    r.beforeRevision.getD "" ≠ r.afterRevision.getD ""

instance (calls : List CallRow) : Decidable (Mutated calls) :=
  inferInstanceAs (Decidable (∃ r ∈ calls, _))

def Verified (revision : String) (evidence : List Evidence) : Prop :=
  ∃ e ∈ evidence, e.passed ∧ e.subjectRevision = revision ∧ (e.scope = "focused" ∨ e.scope = "full")

instance (revision : String) (evidence : List Evidence) : Decidable (Verified revision evidence) :=
  inferInstanceAs (Decidable (∃ e ∈ evidence, _))

def processErrors (processes : List Process) : List String :=
  (processes.filter fun p => ¬ (p.oneShot ∧ p.done) ∧
    p.status ∉ ["completed", "cancelled", "already_completed"]).map fun p =>
      "process " ++ p.id ++ " is " ++ p.status ++ "; reconcile before completion"

def demoted (errors : List String) (end_ : RunStatus × List String) : RunStatus × List String :=
  if end_.1 = .completed ∧ errors ≠ [] then (.needsInput, end_.2 ++ errors) else end_

def pauseForInput (status : RunStatus) : Engine Unit := do
  let pausedAt ← get fun j => j.state.pausedAt
  if status = .needsInput ∧ pausedAt = none then do
    let t ← now
    set fun s => { s with pausedAt := some t }
    let elapsed ← elapsedWall
    event "paused" [("reason", .str "waiting_for_input"), ("elapsed_wall", .num elapsed)]
  else return

def finishIncremental (status : RunStatus) (answer : String) (unresolved : List String) :
    Engine RunResult := do
  let processes : List Process ← request Ask.processes
  let revision ← currentWorkspaceRevision
  let j ← get id
  let review : Review ← request (Ask.review answer)
  let unverified := if Mutated j.calls ∧ ¬ (Verified revision j.evidence ∨ review.artifactVerified)
    then ["workspace changes are unverified at current revision"] else []
  let ended := demoted review.researchErrors (demoted unverified (demoted review.contractErrors
    (demoted (processErrors processes) (status, unresolved))))
  pauseForInput ended.1
  let j ← get id
  let result : RunResult :=
    { status := ended.1, answer, verification := j.inOrder.filterMap CallRow.result,
      usage := j.state.usage, unresolvedItems := ended.2 }
  set fun s => { s with result := some result }
  finished ended.1 ended.2
  return result

/-! ### The execution of a call -/

def toolAdmitted (host : Host) (callId name : String) (arguments : Dict) : Engine Unit :=
  event "tool_admitted" [("call_id", .str callId), ("name", .str name),
    ("arguments_sha256", .str (host.sha (host.encode (.obj arguments))))]

def admitCall (host : Host) (usage : Usage) (callId name : String) (arguments : Dict) : Engine String := do
  set fun s => { s with usage := { usage with toolCalls := usage.toolCalls + 1 } }
  let before ← currentWorkspaceRevision
  put (Journal.updCall callId fun r => { r with state := .admitted, beforeRevision := some before })
  toolAdmitted host callId name arguments
  return before

/-- The scope of evidence that a result claims, `"none"` if it claims none. -/
def evidenceScope (r : ToolResult) : String := ((field "evidence_scope" r.metadata).bind asText).getD "none"

/-- `result.after_revision or self.current_workspace_revision()` -/
def revisionAfter (r : ToolResult) : Engine String :=
  match r.afterRevision with
  | none | some "" => currentWorkspaceRevision
  | some revision => return revision

def recordEvidence (callId : String) (r : ToolResult) (after aid : String) : Engine Unit :=
  if evidenceScope r ∈ verifyScopes then do
    let id ← uuid
    let createdAt ← now
    let evidence : Evidence :=
      { id, callId, scope := evidenceScope r, subjectRevision := after, passed := decide r.Ok,
        sourceArtifactId := aid, createdAt }
    put fun j => { j with evidence := j.evidence ++ [evidence] }
    event "evidence" evidence.asdict
  else return

/-- What a result leaves: its receipt, the row, and the evidence; the receipt and the revision after
the call. -/
def record (callId : String) (result : ToolResult) : Engine (Dict × String) := do
  let aid ← putJson result.asdict
  let receipt := receiptOf result aid
  let after ← revisionAfter result
  put (Journal.updCall callId fun r =>
    { r with state := .completed, result := some receipt, afterRevision := some after })
  event "tool_result" (receipt ++ [("source_artifact_id", .str aid)])
  recordEvidence callId result after aid
  return (receipt, after)

/-- What the executor of an incremental call comes to. -/
def outcomeOf (callId : String) : Outcome → Engine ToolResult
  | .returned r =>
    return if r.callId = callId then r else
      { callId, status := "error", text := "invalid executor result",
        errorKind := some "invalid_result" }
  | .other =>
    return { callId, status := "error", text := "invalid executor result",
             errorKind := some "invalid_result" }
  | .raised kind message => raise (.executorError kind message)
  | .interrupted => raise .keyboardInterrupt

/-- What a caller sees of a result, when the session makes no progress. -/
def noticed (name : String) (action : Option String) (r : ToolResult) : ToolResult :=
  if name.startsWith "process_" then
    if action = some "recover" ∨ action = some "stop" then
      { r with
        status := if action = some "stop" then "error" else r.status
        errorKind := if action = some "stop" then some "stall_detected" else r.errorKind
        metadata := upsert Prod.fst ("progress_notice", .str
          "Repeated process observation stopped; use a new cursor or recovery action.")
          (fun _ => ("progress_notice", .str
            "Repeated process observation stopped; use a new cursor or recovery action.")) r.metadata }
    else r
  else if action = some "recover" then
    { r with text := r.text ++
        "\n[SMARA: progress stalled; make one bounded, materially different recovery attempt.]" }
  else if action = some "stop" then
    { r with
      status := "error", text := "Repeated identical failure stopped."
      errorKind := some "stall_detected" }
  else r

def remember (call : ToolCall) (fp : String) (cache : List (String × Dict)) (result : ToolResult)
    (receipt : Dict) : Engine Unit :=
  if call.name ∈ reusableReadTools ∧ result.Ok then
    set fun s => { s with receiptCache := upsert Prod.fst (fp, receipt) (fun _ => (fp, receipt)) cache }
  else return

def stalled (callId : String) : Option String → String → Engine Unit
  | none, _ => return
  | some action, reason =>
    event "stall" [("call_id", .str callId), ("action", .str action), ("reason", .str reason)]

def progressOf (host : Host) (call : ToolCall) (fp before after : String) (r : ToolResult) :
    ProgressRecord where
  fingerprint := fp
  callId := call.callId
  tool := call.name
  subjectRevision := after
  resultHash := host.sha r.text
  passed := decide r.Ok
  materialProgress := before ≠ after ∨ evidenceScope r ∈ verifyScopes
  reason := if before ≠ after then "revision_changed"
    else if evidenceScope r ∈ verifyScopes then "evidence" else "observation"

def progress (current : ProgressRecord) : Engine (Option String) := do
  let window ← get fun j => j.state.progressWindow
  let verdict := classify window current
  set fun s => { s with progressWindow := lastRecords 12 (window ++ [current]) }
  event "progress" (current.asdict ++
    [("action", (verdict.1.map .str).getD .null), ("stall_reason", .str verdict.2)])
  stalled current.callId verdict.1 verdict.2
  return verdict.1

def newRow (call : ToolCall) (position : ℕ) : CallRow where
  callId := call.callId
  position := position
  name := call.name
  arguments := call.arguments
  workspaceId := call.workspaceId
  mutating := call.name ∈ mutatingTools ∨
    call.name ∈ ["patch", "file_write", "terminal", "python_execute"]
  state := .pending

/-- The row of a read that is answered by a receipt of another. The receipt stands in the last column,
and in the column of the result `NULL`. -/
def reusedRow (host : Host) (call : ToolCall) (position : ℕ) (revision : String) (receipt : Dict) :
    CallRow where
  callId := call.callId
  position := position
  name := call.name
  arguments := call.arguments
  workspaceId := call.workspaceId
  mutating := false
  state := .completed
  result := none
  beforeRevision := some revision
  afterRevision := some (host.encode (.obj receipt))

def withText (key text : String) (d : Dict) : Dict :=
  upsert Prod.fst (key, .str text) (fun _ => (key, .str text)) d

/-- What a caller sees of a receipt that is reused for the `count`th time. -/
def reusedResult (count : ℕ) (r : ToolResult) : ToolResult :=
  if count = 2 then
    { r with text := r.text ++
        "\n[SMARA: cached observation repeated; choose a materially different strategy.]" }
  else if 3 ≤ count then
    { r with
      status := "error", text := "Repeated unchanged read stopped after bounded recovery."
      errorKind := some "stall_detected" }
  else r

/-- The row of a read that is answered by a receipt, if it has none. -/
def storeReused (host : Host) (call : ToolCall) (revision : String) (receipt : Dict) : Engine Unit := do
  let existing ← get fun j => j.call call.callId
  match existing with
  | some _ => return
  | none => do
    let position ← get Journal.nextPosition
    attempt (Journal.insertCall (reusedRow host call position revision receipt))

def reused (call : ToolCall) (fp : String) (count : ℕ) (receipt : Dict) : Engine Unit := do
  let action := if count = 2 then "strategy_change" else if 3 ≤ count then "stop" else "cached_result"
  event "tool_result_reused" [("call_id", .str call.callId),
    ("source_call_id", (field "call_id" receipt).getD .null), ("fingerprint", .str fp),
    ("reuse_count", .num count), ("action", .str action)]
  if 2 ≤ count then
    event "stall" [("call_id", .str call.callId), ("action", .str action),
      ("reason", .str "repeated_cached_read")]
  else return

def reusedAnswer (count : ℕ) (cached : Dict) : Engine ToolResult :=
  match ToolResult.ofDict cached with
  | none => raise (.typeError "ToolResult")
  | some result => return reusedResult count result

/-- **A read that is answered by a receipt.** -/
def reuse (host : Host) (call : ToolCall) (fp revision : String) (receipt : Dict) :
    Engine ToolResult := do
  let cached := withText "call_id" call.callId (withoutArtifact receipt)
  storeReused host call revision (cached ++
    [("artifact_id", (field "artifact_id" receipt).getD .null), ("reused", .bool true)])
  let counts ← get fun j => j.state.receiptReuseCounts
  let count := ((lookup Prod.fst fp counts).map Prod.snd).getD 0 + 1
  set fun s => { s with
    receiptReuseCounts := upsert Prod.fst (fp, count) (fun _ => (fp, count)) counts }
  reused call fp count receipt
  reusedAnswer count cached

/-- The result of a call that is completed, from its row. -/
def replay (result : Option Dict) : Engine ToolResult :=
  match result with
  | none => raise (.typeError "the JSON object must be str, bytes or bytearray, not NoneType")
  | some receipt =>
    match ToolResult.ofDict (withoutArtifact receipt) with
    | none => raise (.typeError "ToolResult")
    | some r => return r

def executeFresh (host : Host) (budget : Budget) (call : ToolCall) (fp : String)
    (cache : List (String × Dict)) : Engine ToolResult := do
  let usage ← get fun j => j.state.usage
  require (usage.toolCalls + 1 ≤ budget.toolCalls) (.budgetExceeded "tool_calls")
  let before ← admitCall host usage call.callId call.name call.arguments
  let outcome : Outcome ← request (Ask.execute call true)
  let result ← outcomeOf call.callId outcome
  let (receipt, after) ← record call.callId result
  remember call fp cache result receipt
  let action ← progress (progressOf host call fp before after result)
  return noticed call.name action result

/-- The execution of an incremental call that no receipt answers. -/
def executeRow (host : Host) (budget : Budget) (call : ToolCall) (fp : String)
    (cache : List (String × Dict)) : Engine ToolResult := do
  let existing ← get fun j => j.call call.callId
  match existing with
  | some row =>
    if row.state = .completed then replay row.result
    else if row.state = .admitted ∧ row.mutating then
      raise (.runtimeError ("uncertain mutation: " ++ call.callId))
    else executeFresh host budget call fp cache
  | none => do
    let position ← get Journal.nextPosition
    attempt (Journal.insertCall (newRow call position))
    executeFresh host budget call fp cache

/-- A call that reads the workspace makes the session depend on its revision. -/
def requireRevision (call : ToolCall) : Engine Unit :=
  if call.name ∈ webOnlyTools then return
  else set fun s => { s with fullWorkspaceRevisionRequired := true }

def executeIncremental (host : Host) (call : ToolCall) : Engine ToolResult := do
  requireRevision call
  admitted host
  let budget ← budgetOf host
  let revision ← currentWorkspaceRevision
  let fp := fingerprint host call.name call.arguments revision
  let cache ← get fun j => j.state.receiptCache
  match (if call.name ∈ reusableReadTools then lookup Prod.fst fp cache else none) with
  | some (_, receipt) => reuse host call fp revision receipt
  | none => executeRow host budget call fp cache

/-! ### The run of a plan -/

/-- What the executor of a planned call comes to; an executor that is given must return a result of the
call. -/
def plannedOutcome (callId before : String) (given : Bool) : Outcome → Engine ToolResult
  | .returned r =>
    if given = false then return { r with callId }
    else if r.callId = callId then return r
    else failed "TypeError" "executor returned invalid ToolResult"
  | .other => failed "TypeError" "executor returned invalid ToolResult"
  | .raised kind message => failed kind message
  | .interrupted => do
    event "interrupted" [("call_id", .str callId)]
    raise .keyboardInterrupt
where
  /-- the result of an executor that raised -/
  failed (kind message : String) : Engine ToolResult := do
    let after ← currentWorkspaceRevision
    return { callId, status := "error", text := kind ++ ": " ++ message, errorKind := some kind,
             beforeRevision := some before, afterRevision := some after }

def failedStatus (r : ToolResult) : RunStatus :=
  if r.status = "denied" then .denied else if r.status = "cancelled" then .cancelled else .toolError

/-- `result.error_kind or result.status` -/
def reasonOf (r : ToolResult) : String :=
  match r.errorKind with
  | none | some "" => r.status
  | some kind => kind

/-- How a call of the plan leaves the run: it goes on, with the usage and the receipts, or it ends. -/
inductive Turnout
  | goesOn (usage : Usage) (receipts : List Dict)
  | ends (result : RunResult)

/-- The end of a run within the plan. -/
def ending (status : RunStatus) (receipts : List Dict) (unresolved : String) : Engine Turnout := do
  let result ← finish status receipts [unresolved]
  return .ends result

/-- An admitted call that does not write goes back. -/
def readmitRow (row : CallRow) : Engine Unit :=
  if row.state = .admitted then put (Journal.updCall row.callId fun r => { r with state := .pending })
  else return

def executePlanned (host : Host) (given : Bool) (usage : Usage) (receipts : List Dict) (row : CallRow) :
    Engine Turnout := do
  let before ← admitCall host usage row.callId row.name row.arguments
  let call : ToolCall :=
    { callId := row.callId, name := row.name, arguments := row.arguments, workspaceId := row.workspaceId }
  let outcome : Outcome ← request (Ask.execute call given)
  let result ← plannedOutcome row.callId before given outcome
  let (receipt, _) ← record row.callId result
  if result.Ok then
    return .goesOn { usage with toolCalls := usage.toolCalls + 1 } (receipts ++ [receipt])
  else ending (failedStatus result) (receipts ++ [receipt]) (reasonOf result)

/-- One turn of the loop of `continue_run`. -/
def continueCall (host : Host) (given : Bool) (budget : Budget) (usage : Usage) (receipts : List Dict)
    (row : CallRow) : Engine Turnout :=
  if row.state = .completed then return .goesOn usage (receipts ++ row.result.toList)
  else if row.state = .admitted ∧ row.mutating then
    ending .needsInput receipts ("uncertain mutation: " ++ row.callId)
  else do
    readmitRow row
    let cancelled ← get fun j => j.state.cancelled
    if cancelled then ending .cancelled receipts "cancelled by user"
    else do
      let pausedAt ← get fun j => j.state.pausedAt
      if pausedAt ≠ none then ending .interrupted receipts "session is paused"
      else do
        let elapsed ← elapsedWall
        if budget.wallSeconds ≤ elapsed ∨ budget.toolCalls ≤ usage.toolCalls then do
          event "budget_exhausted" []
          ending .budgetExhausted receipts "budget exhausted"
        else executePlanned host given usage receipts row

/-- What comes after the last call of a plan. -/
def completePlan (receipts : List Dict) : Engine RunResult := do
  let revision ← currentWorkspaceRevision
  let j ← get id
  if Mutated j.calls ∧ ¬ Verified revision j.evidence then
    finish .needsInput receipts ["workspace changes are unverified at current revision"]
  else finish .completed receipts []

/-- The loop of `continue_run` over the rows, as they were at its start. -/
def continueCalls (host : Host) (given : Bool) (budget : Budget) :
    Usage → List Dict → List CallRow → Engine RunResult
  | _, receipts, [] => completePlan receipts
  | usage, receipts, row :: rows => do
    match ← continueCall host given budget usage receipts row with
    | .goesOn usage receipts => continueCalls host given budget usage receipts rows
    | .ends result => return result

def continueRun (host : Host) (given : Bool) : Engine RunResult := do
  let cancelled ← get fun j => j.state.cancelled
  if cancelled then finish .cancelled [] ["cancelled by user"]
  else do
    let budget ← budgetOf host
    let usage ← get fun j => j.state.usage
    let calls ← get Journal.inOrder
    continueCalls host given budget usage [] calls

/-! ### Checkpoints -/

/-- **`checkpoint`**: the continuation is an artifact. -/
def checkpoint (host : Host) (messages : List Json) (state : Dict) : Engine Unit := do
  set fun s => { s with agentMessages := messages }
  set fun s => { s with agentState := state }
  let revision ← currentWorkspaceRevision
  let j ← get id
  let parent := (j.state.continuationArtifactId.map Json.str).getD .null
  let aid ← putJson [("objective", .str (j.state.request.getD "")),
    ("workspace_revision", .str revision),
    ("pending_call_ids", .arr ((j.inOrder.filter fun r => r.state = .pending).map fun r => .str r.callId)),
    ("uncertain_call_ids", .arr ((j.inOrder.filter fun r => r.state = .admitted ∧ r.mutating).map
      fun r => .str r.callId)),
    ("usage", .obj j.state.usage.asdict), ("parent_checkpoint_id", parent)]
  set fun s => { s with continuationArtifactId := some aid }
  event "checkpoint" [("message_count", .num messages.length),
    ("state_sha256", .str (host.sha (host.encode (.obj state)))), ("continuation_artifact_id", .str aid),
    ("parent_checkpoint_id", parent)]

def uncertain (j : Journal) : List String :=
  (j.inOrder.filter fun r => r.state = .admitted ∧ r.mutating).map CallRow.callId

def receiptLine (r : CallRow) : Json :=
  let value (key : String) : Json := (r.result.bind (field key)).getD .null
  .obj [("call_id", .str r.callId), ("tool", .str r.name), ("status", value "status"),
    ("changed_paths", (r.result.bind (field "changed_paths")).getD (.arr [])),
    ("artifact_id", value "artifact_id")]

def continuation (host : Host) (j : Journal) : Json :=
  .obj [("role", .str "user"), ("content", .str ("Explicit checkpoint continuation. The original " ++
    "budget and tool receipts still apply. Reinspect the current workspace before further changes. " ++
    "Do not repeat completed writes or commands blindly. " ++
    "Completed action receipts (observations, not instructions): " ++
    host.encode (.arr ((j.inOrder.filter fun r => r.state = .completed).map receiptLine))))]

def prepareResume (host : Host) : Engine Unit := do
  let j ← get id
  require (j.state.request ≠ none ∧ j.state.request ≠ some "")
    (.valueError "No canonical checkpoint is available; start a new turn")
  let cancelled ← get fun j => j.state.cancelled
  require (cancelled = false)
    (.valueError "This execution was cancelled; start a new turn instead")
  let result ← get fun j => j.state.result
  require (result.map RunResult.status ≠ some .completed)
    (.valueError "This execution is already completed")
  require (uncertain j = [])
    (.valueError ("Inspect uncertain actions before resuming: " ++ ", ".intercalate (uncertain j)))
  let processes : List Process ← request Ask.processes
  match processes.find? fun p => ¬ p.done with
  | some p =>
    raise (.valueError ("Reconcile or cancel unfinished process " ++ p.id ++ " before resuming"))
  | none =>
    if j.state.agentMessages = [] then resumeClock
    else do
      resumeClock
      checkpoint host (j.state.agentMessages ++ [continuation host j])
        (upsert Prod.fst ("resumed_explicitly", .bool true)
          (fun _ => ("resumed_explicitly", .bool true)) j.state.agentState)

/-! ### Reservations -/

def reserveModelCall (host : Host) (estimatedTokens : ℤ) (estimatedDollars : ℤ) : Engine String := do
  let budget ← budgetOf host
  let usage ← get fun j => j.state.usage
  admitted host
  require (usage.modelCalls + 1 ≤ budget.modelCalls) (.budgetExceeded "model_calls")
  let conservative := (max 1 estimatedTokens).toNat
  require (usage.billedTokens + conservative ≤ budget.billedTokens) (.budgetExceeded "billed_tokens")
  require (usage.dollars + estimatedDollars ≤ budget.dollars) (.budgetExceeded "dollars")
  let reservation ← uuid
  set fun s => { s with usage := { usage with
    modelCalls := usage.modelCalls + 1
    billedTokens := usage.billedTokens + conservative
    dollars := usage.dollars + estimatedDollars } }
  let reservations ← get fun j => j.state.modelReservations
  let row : ModelReservation :=
    { estimatedTokens := conservative, estimatedDollars, attempts := 1 }
  set fun s => { s with
    modelReservations := upsert Prod.fst (reservation, row) (fun _ => (reservation, row)) reservations }
  event "provider_request" [("reservation_id", .str reservation),
    ("estimated_tokens", .num conservative), ("accounting_quality", .str "conservative")]
  return reservation

def reserved {α : Type} [AddMonoid α] (amount : Budget → α)
    (reservations : List (String × ChildReservation)) : α :=
  ((reservations.filter fun c => c.2.Reserved).map fun c => amount c.2.budget).sum

def reserveChildBudget (host : Host) (allocation : Budget) (depth maxDepth maxFanout : ℕ) :
    Engine String := do
  let cancelled ← get fun j => j.state.cancelled
  require (cancelled = false) (.budgetExceeded "cancelled")
  let paused ← get fun j => j.state.pausedAt
  require (paused = none) (.budgetExceeded "paused")
  require (depth ≤ maxDepth) (.budgetExceeded "child_depth")
  let root ← budgetOf host
  let used ← get fun j => j.state.usage
  let reservations ← get fun j => j.state.childReservations
  require ((reservations.filter fun c => c.2.Reserved).length < maxFanout)
    (.budgetExceeded "child_fanout")
  require (used.toolCalls + reserved Budget.toolCalls reservations + allocation.toolCalls
    ≤ root.toolCalls) (.budgetExceeded "child_tool_calls")
  require (used.modelCalls + reserved Budget.modelCalls reservations + allocation.modelCalls
    ≤ root.modelCalls) (.budgetExceeded "child_model_calls")
  require (used.billedTokens + reserved Budget.billedTokens reservations + allocation.billedTokens
    ≤ root.billedTokens) (.budgetExceeded "child_tokens")
  require (used.dollars + reserved Budget.dollars reservations + allocation.dollars ≤ root.dollars)
    (.budgetExceeded "child_dollars")
  let id ← uuid
  let ident := "child_" ++ id
  let row : ChildReservation := { budget := allocation, depth }
  set fun s => { s with
    childReservations := upsert Prod.fst (ident, row) (fun _ => (ident, row)) reservations }
  event "child_budget_reserved" [("reservation_id", .str ident),
    ("budget", .obj allocation.asdict), ("depth", .num depth)]
  return ident

def reconcileChildBudget (reservationId : String) (usage : Usage) : Engine Unit := do
  let reservations ← get fun j => j.state.childReservations
  match lookup Prod.fst reservationId reservations with
  | none => raise (.valueError "invalid child reservation")
  | some (_, item) => do
    require item.Reserved (.valueError "invalid child reservation")
    require (usage.toolCalls ≤ item.budget.toolCalls) (.budgetExceeded "child_tool_calls")
    require (usage.modelCalls ≤ item.budget.modelCalls) (.budgetExceeded "child_model_calls")
    require (usage.billedTokens ≤ item.budget.billedTokens) (.budgetExceeded "child_billed_tokens")
    require (usage.dollars ≤ item.budget.dollars) (.budgetExceeded "child_dollars")
    let root ← get fun j => j.state.usage
    let row : ChildReservation := { item with usage := some usage }
    set fun s => { s with usage :=
      { toolCalls := root.toolCalls + usage.toolCalls
        modelCalls := root.modelCalls + usage.modelCalls
        billedTokens := root.billedTokens + usage.billedTokens
        dollars := root.dollars + usage.dollars } }
    set fun s => { s with
      childReservations := upsert Prod.fst (reservationId, row) (fun _ => (reservationId, row))
        reservations }
    event "child_budget_reconciled" [("reservation_id", .str reservationId),
      ("usage", .obj usage.asdict)]

def reserveModelRetry (host : Host) (reservationId : String) : Engine Unit := do
  let reservations ← get fun j => j.state.modelReservations
  match lookup Prod.fst reservationId reservations with
  | none => raise (.budgetExceeded "missing_retry_reservation")
  | some (_, reservation) => do
    let budget ← budgetOf host
    let usage ← get fun j => j.state.usage
    admitted host
    require (usage.modelCalls + 1 ≤ budget.modelCalls) (.budgetExceeded "model_calls")
    require (usage.billedTokens + reservation.estimatedTokens ≤ budget.billedTokens)
      (.budgetExceeded "billed_tokens")
    require (usage.dollars + reservation.estimatedDollars ≤ budget.dollars) (.budgetExceeded "dollars")
    let row : ModelReservation := { reservation with attempts := reservation.attempts + 1 }
    set fun s => { s with usage := { usage with
      modelCalls := usage.modelCalls + 1
      billedTokens := usage.billedTokens + reservation.estimatedTokens
      dollars := usage.dollars + reservation.estimatedDollars } }
    set fun s => { s with
      modelReservations := upsert Prod.fst (reservationId, row) (fun _ => (reservationId, row))
        reservations }
    event "provider_retry_reserved" [("reservation_id", .str reservationId),
      ("attempt", .num row.attempts), ("estimated_dollars", .num reservation.estimatedDollars)]

def correctUsage : Option (String × ModelReservation) → Option ℤ → Engine Unit
  | some (_, reservation), some actual => do
    let usage ← get fun j => j.state.usage
    set fun s => { s with usage := { usage with billedTokens :=
      (max 0 ((usage.billedTokens : ℤ) - reservation.estimatedTokens + actual)).toNat } }
  | _, _ => return

/-- **`reconcile_model_call`**: a usage that is not known stays charged at its estimate. -/
def reconcileModelCall (reservationId : String) (actualTokens : Option ℤ)
    (providerRequestId : Option String) (status : String) (retries : ℕ) : Engine Unit := do
  let reservations ← get fun j => j.state.modelReservations
  correctUsage (lookup Prod.fst reservationId reservations) actualTokens
  event "provider_response" [("reservation_id", .str reservationId),
    ("provider_request_id", (providerRequestId.map .str).getD .null), ("status", .str status),
    ("actual_tokens", (actualTokens.map .num).getD .null),
    ("usage_known", .bool actualTokens.isSome), ("retries", .num retries)]

/-! ### The machine of a session -/

/-- The operations that take the writer's lock. -/
inductive Op
  | beginIncremental (request : String)
  /-- `run`: `store_plan`, and then `continue_run` -/
  | run (request : String) (plan : List PlannedCall) (resume given : Bool)
  | storePlan (request : String) (plan : List PlannedCall) (resume : Bool)
  /-- `resume`: `continue_run` -/
  | continueRun (given : Bool)
  | executeIncremental (call : ToolCall)
  | finishIncremental (status : RunStatus) (answer : String) (unresolved : List String)
  | prepareResume
  | checkpoint (messages : List Json) (state : Dict)
  | pause
  | resumeClock
  | reserveModelCall (estimatedTokens estimatedDollars : ℤ)
  | reserveChildBudget (allocation : Budget) (depth maxDepth maxFanout : ℕ)
  | reconcileChildBudget (reservationId : String) (usage : Usage)
  | reserveModelRetry (reservationId : String)
  | reconcileModelCall (reservationId : String) (actualTokens : Option ℤ)
      (providerRequestId : Option String) (status : String) (retries : ℕ)
  /-- `set("tool_profile", …)` -/
  | setToolProfile (profile : String)

/-- A program whose result is not looked at. -/
def silent {α : Type} (p : Engine α) : Engine Unit := do
  let _ ← p
  return

/-- The program of an operation, by an engine that has the host. -/
def program : Host × Op → Engine Unit
  | (host, .beginIncremental request) => beginIncremental host request
  | (host, .run request plan resume given) => do
    storePlan host request plan resume
    silent (continueRun host given)
  | (host, .storePlan request plan resume) => storePlan host request plan resume
  | (host, .continueRun given) => silent (continueRun host given)
  | (host, .executeIncremental call) => silent (executeIncremental host call)
  | (_, .finishIncremental status answer unresolved) =>
    silent (finishIncremental status answer unresolved)
  | (host, .prepareResume) => prepareResume host
  | (host, .checkpoint messages state) => checkpoint host messages state
  | (_, .pause) => pause
  | (_, .resumeClock) => resumeClock
  | (host, .reserveModelCall tokens dollars) => silent (reserveModelCall host tokens dollars)
  | (host, .reserveChildBudget allocation depth maxDepth maxFanout) =>
    silent (reserveChildBudget host allocation depth maxDepth maxFanout)
  | (_, .reconcileChildBudget id usage) => reconcileChildBudget id usage
  | (host, .reserveModelRetry id) => reserveModelRetry host id
  | (_, .reconcileModelCall id tokens requestId status retries) =>
    reconcileModelCall id tokens requestId status retries
  | (_, .setToolProfile profile) => set fun s => { s with toolProfile := some profile }

/-- The statements of `cancel`, which does not take the lock. -/
inductive Cancel
  | flag
  | event (createdAt : Time)

def cancel : Cancel → Journal → Journal
  | .flag, j => { j with state := { j.state with cancelled := true } }
  | .event createdAt, j =>
    { j with events := j.events ++ [{ type := "cancel_requested", payload := [], createdAt }] }

/-- A session: its journal, the operation that runs, and what the machine has been asked. -/
abbrev Session := Machine Journal Err Answer (Host × Op) Unit

abbrev Happening := Event Answer (Host × Op) Cancel

abbrev arrived (happenings : List Happening) : Session :=
  Smara.Lib.Machine.run (next program cancel) { store := {} } happenings

end Smara.Harness.Engine
