import Smara.Session.Envelope

/-! # The journal of the protocol

The transactions of `SessionProtocol` and `ProtocolTurn`. `endTurn` is `_end`: it closes what is open
of a turn and appends `turn.completed`. A call of several transactions is split at their borders;
`Smara.Session.Steps` puts the parts together. -/

namespace Smara.Session.Protocol

open Lib.Table Lib.Transaction
open TaskStore.Schema (Uuid Time Digest)
open TaskStore.Report (hex)
open Goals.Schema (Json)
open Goals.Spec (strip)
open Session.Schema Session.Envelope

def turnName (id : Uuid) : String := "turn_" ++ hex id

def itemName (id : Uuid) : String := "item_" ++ hex id

def approvalName (id : Uuid) : String := "approval_" ++ hex id

def Active (turnId : Uuid) (db : SessionDb) : Prop := ∃ t ∈ db.turn turnId, t.status.Active

instance (turnId : Uuid) (db : SessionDb) : Decidable (Active turnId db) :=
  inferInstanceAs (Decidable (∃ t ∈ db.turn turnId, _))

def Orphaned (host : Host) (t : Turn) : Prop := ∃ pid ∈ t.ownerPid, pid ≠ 0 ∧ ¬ host.alive pid

instance (host : Host) (t : Turn) : Decidable (Orphaned host t) :=
  inferInstanceAs (Decidable (∃ pid ∈ t.ownerPid, _))

def whileActive {β : Type} (turnId : Uuid) (body : SessionDb → β × SessionDb) (db : SessionDb) :
    Except Err (β × SessionDb) :=
  match db.turn turnId with
  | none => .error .typeError
  | some t =>
    if t.status.Active then .ok (body db) else .error (.runtimeError "Turn is no longer active")

/-! ### The end of a turn -/

def closedStatus (status : TurnStatus) : ItemStatus :=
  if status = .cancelled then .cancelled else .failed

/-- The loop of `_end`. -/
def closeItems (env : Env) (threadId : String) (turnId : Uuid) (status : ItemStatus) :
    List Item → SessionDb → SessionDb
  | [], db => db
  | i :: items, db =>
    closeItems env threadId turnId status items
      ((db.updItems (fun j => j.id = i.id) fun j => { j with status := status }).event threadId turnId
        .itemCompleted
        (.obj [("item_id", .str (itemName i.id)), ("status", .str status.text)]) env.now)

/-- The turn, its approvals and its items, once the turn has ended. -/
def endedTurn (env : Env) (turnId : Uuid) (status : TurnStatus) (db : SessionDb) : SessionDb :=
  (db.updTurns (fun t => t.id = turnId)
    fun t => { t with status := status, endedAt := some env.now }).updApprovals
      (fun a => a.turnId = turnId ∧ a.decision = .pending) fun a => { a with decision := .expired }

def endTurn (env : Env) (threadId : String) (turnId : Uuid) (status : TurnStatus) (db : SessionDb) :
    SessionDb :=
  (closeItems env threadId turnId (closedStatus status)
    (db.items.filter fun i => i.turnId = turnId ∧ i.status = .running)
    (endedTurn env turnId status db)).event threadId turnId .turnCompleted
      (.obj [("status", .str status.text)]) env.now

/-! ### `begin` -/

inductive ApprovalMode
  | auto | ask
  deriving DecidableEq

def ApprovalMode.text : ApprovalMode → String
  | .auto => "auto"
  | .ask => "ask"

def beginChecked (request mode : String) : Except Err ApprovalMode :=
  if mode ≠ "auto" ∧ mode ≠ "ask" then .error (.valueError "approval_mode must be auto or ask")
  else if strip request = "" then .error (.valueError "request must be nonempty text")
  else .ok (if mode = "ask" then .ask else .auto)

def activeTurn (threadId : String) (db : SessionDb) : Option Turn :=
  db.turns.find? fun t => t.threadId = threadId ∧ t.status.Active

/-- The turn whose owner has ended is closed. -/
def recovered (env : Env) (threadId : String) (turnId : Uuid) (db : SessionDb) : SessionDb :=
  (endTurn env threadId turnId .needsInput db).event threadId turnId .turnInterrupted
    (.obj [("reason", .str "owning process exited; unfinished tools are not replayed")]) env.now

def opened (env : Env) (turnId : Uuid) (threadId : String) (mode : ApprovalMode) (db : SessionDb) :
    SessionDb :=
  SessionDb.event threadId turnId .turnStarted (.obj [("approval_mode", .str mode.text)]) env.now
    { db with
      turns := db.turns ++
        [{ id := turnId
           threadId
           status := .running
           createdAt := env.now
           ownerPid := some env.host.pid }] }

/-- The transaction of **`begin`**; the request is recorded afterwards. -/
def begin (env : Env) (turnId : Uuid) (threadId request mode : String) (db : SessionDb) :
    Except Err (ApprovalMode × SessionDb) := do
  let mode ← beginChecked request mode
  match db.session threadId with
  | none => throw (.keyError threadId)
  | some _ =>
    match activeTurn threadId db with
    | none => return (mode, opened env turnId threadId mode db)
    | some t =>
      if Orphaned env.host t then
        return (mode, opened env turnId threadId mode (recovered env threadId t.id db))
      else
        throw (.valueError
          "This thread already has an active turn. Interrupt it before starting another.")

/-! ### Items -/

def insertItem (env : Env) (itemId : Uuid) (threadId : String) (turnId : Uuid) (kind : String)
    (payload : Json) (db : SessionDb) : SessionDb :=
  SessionDb.event threadId turnId .itemStarted
    (merged [("item_id", .str (itemName itemId)), ("kind", .str kind)] payload) env.now
    { db with items := db.items ++ [⟨itemId, turnId, kind, .running, payload⟩] }

def item (env : Env) (itemId : Uuid) (threadId : String) (turnId : Uuid) (kind : String)
    (payload : Json) : SessionDb → Except Err (Unit × SessionDb) :=
  whileActive turnId fun db =>
    ((), insertItem env itemId threadId turnId kind (safe env.host payload) db)

def Running (turnId itemId : Uuid) (i : Item) : Prop :=
  i.id = itemId ∧ i.turnId = turnId ∧ i.status = .running

instance (turnId itemId : Uuid) (i : Item) : Decidable (Running turnId itemId i) :=
  inferInstanceAs (Decidable (_ ∧ _))

def closeItem (env : Env) (threadId : String) (turnId itemId : Uuid) (payload : Json)
    (status : ItemStatus) (db : SessionDb) : SessionDb :=
  (db.updItems (Running turnId itemId)
    fun i => { i with status := status, payload := payload }).event threadId turnId .itemCompleted
      (merged [("item_id", .str (itemName itemId)), ("status", .str status.text)] payload) env.now

def completeItem (env : Env) (threadId : String) (turnId itemId : Uuid) (payload : Json)
    (status : ItemStatus) (db : SessionDb) : Except Err (Unit × SessionDb) :=
  if ∃ i ∈ db.items, Running turnId itemId i then
    .ok ((), closeItem env threadId turnId itemId (safe env.host payload) status db)
  else .ok ((), db)

/-- The payload of a message after more of its text. -/
def appendText (text : String) (payload : Json) : Json :=
  let before := match get "text" payload with
    | some (.str s) => s
    | _ => ""
  match payload with
  | .obj members =>
    let member := ("text", Json.str (before ++ text))
    .obj (upsert Prod.fst member (fun _ => member) members)
  | value => value

def appendDelta (env : Env) (threadId : String) (turnId messageId : Uuid) (text : String)
    (payload : Json) (db : SessionDb) : SessionDb :=
  (db.updItems (fun i => i.id = messageId)
    fun i => { i with payload := appendText text payload }).event threadId turnId .itemDelta
      (.obj [("item_id", .str (itemName messageId)), ("text", .str text)]) env.now

/-- The second transaction of `text_delta`; the first is that of `item`, for the first text of the
message. -/
def delta (env : Env) (threadId : String) (turnId messageId : Uuid) (text : String)
    (db : SessionDb) : Except Err (Unit × SessionDb) :=
  match db.item messageId with
  | none => .error .typeError
  | some i =>
    if i.status ≠ .running then .ok ((), db)
    else .ok ((), appendDelta env threadId turnId messageId (env.host.redact text) i.payload db)

def journaled (kind : String) : Bool :=
  kind = "context_packed" ∨ kind = "model_request" ∨ kind = "model_retry"

/-- The transaction of `progress`, for a kind that is journaled. -/
def progress (env : Env) (threadId : String) (turnId : Uuid) (kind : String) (data : Json)
    (db : SessionDb) : Except Err (Unit × SessionDb) :=
  .ok ((), db.event threadId turnId
    (if kind = "context_packed" then .turnContext else .turnProgress)
    (merged [("phase", .str kind)] (safe env.host data)) env.now)

/-! ### Approvals -/

/-- `{"name": name, "arguments": arguments}` -/
def actionOf (name : String) (arguments : Json) : Json :=
  .obj [("name", .str name), ("arguments", arguments)]

def digestOf (env : Env) (name : String) (arguments : Json) : Digest :=
  .sha256 (env.host.encode (actionOf name arguments))

def insertApproval (env : Env) (approvalId : Uuid) (threadId : String) (turnId itemId : Uuid)
    (digest : Digest) (action : Json) (db : SessionDb) : SessionDb :=
  SessionDb.event threadId turnId .approvalRequested
    (.obj
      [("approval_id", .str (approvalName approvalId)),
       ("item_id", .str (itemName itemId)),
       ("turn_id", .str (turnName turnId)),
       ("action_sha256", .str (env.host.hexdigest digest)),
       ("action", action)]) env.now
    (SessionDb.updTurns (fun t => t.id = turnId) (fun t => { t with status := .waitingApproval })
      { db with
        approvals := db.approvals ++
          [⟨approvalId, turnId, itemId, digest, action, .pending, env.now⟩] })

/-- The first transaction of `_approve`. -/
def requestApproval (env : Env) (approvalId : Uuid) (threadId : String) (turnId itemId : Uuid)
    (name : String) (arguments : Json) : SessionDb → Except Err (Unit × SessionDb) :=
  whileActive turnId fun db => ((), insertApproval env approvalId threadId turnId itemId
    (digestOf env name arguments) (safe env.host (actionOf name arguments)) db)

def resolved (env : Env) (threadId : String) (turnId approvalId : Uuid) (decision : Decision)
    (db : SessionDb) : SessionDb :=
  (db.updApprovals (fun a => a.id = approvalId) fun a => { a with decision := decision }).event
    threadId turnId .approvalResolved
    (.obj [("approval_id", .str (approvalName approvalId)), ("decision", .str decision.text)]) env.now

def clientDecision : String → Except Err Decision
  | "allow" => .ok .allow
  | "deny" => .ok .deny
  | _ => .error (.valueError "decision must be allow or deny")

/-- The approval with its turn, as `respond` joins them. -/
def approvalRow (approvalId : Uuid) (db : SessionDb) : Option (Approval × Turn) := do
  let a ← db.approval approvalId
  let t ← db.turn a.turnId
  return (a, t)

def respond (env : Env) (threadId : String) (approvalId turnId : Uuid) (sha256 : Digest)
    (decision : String) (db : SessionDb) : Except Err (Decision × SessionDb) := do
  let decision ← clientDecision decision
  match approvalRow approvalId db with
  | none => throw (.valueError "Approval does not match this thread, turn and action")
  | some (a, t) =>
    if t.threadId ≠ threadId ∨ a.turnId ≠ turnId ∨ a.actionSha256 ≠ sha256 then
      throw (.valueError "Approval does not match this thread, turn and action")
    else if ¬ t.status.Active ∨ shouldCancel threadId db ∨ Orphaned env.host t then
      throw (.valueError "Approval is no longer active")
    else if a.decision = .pending then
      return (decision, resolved env threadId turnId approvalId decision db)
    else if a.decision = decision then return (decision, db)
    else throw (.valueError "Approval already has a different decision")

/-- The transaction of a timeout: the decision that is found, or `expired`. -/
def expireApproval (env : Env) (threadId : String) (turnId approvalId : Uuid) (db : SessionDb) :
    Except Err (Decision × SessionDb) :=
  match db.approval approvalId with
  | none => .error .typeError
  | some a =>
    if a.decision = .pending then
      .ok (.expired, resolved env threadId turnId approvalId .expired db)
    else .ok (a.decision, db)

def Pending (turnId : Uuid) (db : SessionDb) : Prop :=
  ∃ a ∈ db.approvals, a.turnId = turnId ∧ a.decision = .pending

instance (turnId : Uuid) (db : SessionDb) : Decidable (Pending turnId db) :=
  inferInstanceAs (Decidable (∃ a ∈ db.approvals, _))

def resumeTurn (turnId : Uuid) (db : SessionDb) : Except Err (Unit × SessionDb) :=
  .ok ((), db.updTurns (fun t => t.id = turnId ∧ t.status = .waitingApproval)
    fun t => { t with status := .running })

/-! ### `finish` and `interrupt` -/

/-- The status that `finish` gives a turn. -/
def finishStatus (status : String) : TurnStatus :=
  if status = "running" ∨ status = "waiting_approval" ∨ status = "created" then .needsInput
  else if status = "completed" then .completed
  else if status = "failed" then .failed
  else if status = "cancelled" then .cancelled
  else if status = "needs_input" then .needsInput
  else .failed

def completeMessage (env : Env) (threadId : String) (turnId messageId : Uuid) (payload : Json)
    (db : SessionDb) : SessionDb :=
  (db.updItems (fun i => i.id = messageId)
    fun i => { i with status := .completed, payload := payload }).event threadId turnId .itemCompleted
      (merged [("item_id", .str (itemName messageId)), ("status", .str ItemStatus.completed.text)]
        payload) env.now

def answered (env : Env) (fresh : Uuid) (threadId : String) (turnId : Uuid)
    (messageId : Option Uuid) (answer : String) (db : SessionDb) : Option Uuid × SessionDb :=
  let payload := Json.obj [("text", .str (env.host.redact answer))]
  if answer = "" then (messageId, db)
  else
    match messageId with
    | some id => (some id, completeMessage env threadId turnId id payload db)
    | none =>
      (some fresh, completeMessage env threadId turnId fresh payload
        (insertItem env fresh threadId turnId "agent_message" payload db))

/-- **`finish`**: the id of the message, if there is one. -/
def finish (env : Env) (fresh : Uuid) (threadId : String) (turnId : Uuid) (messageId : Option Uuid)
    (status answer : String) (db : SessionDb) : Except Err (Option Uuid × SessionDb) :=
  match db.turn turnId with
  | none => .error .typeError
  | some t =>
    if t.status.Active then
      let r := answered env fresh threadId turnId messageId answer db
      .ok (r.1, endTurn env threadId turnId
        (if shouldCancel threadId db then .cancelled else finishStatus status) r.2)
    else .ok (messageId, db)

/-- The second transaction of **`interrupt`**; the first is that of `request_cancel`. -/
def endActive (env : Env) (threadId : String) (db : SessionDb) : Except Err (Unit × SessionDb) :=
  .ok ((), (db.turns.filter fun t => t.threadId = threadId ∧ t.status.Active).foldl
    (fun db t => endTurn env threadId t.id .cancelled db) db)

end Smara.Session.Protocol
