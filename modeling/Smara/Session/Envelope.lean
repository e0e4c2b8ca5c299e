import Smara.Session.Schema

/-! # The envelope of a session

The calls of `SQLiteRuntimeSessionStore`. A session is named by its caller. A checkpoint that names
the turn it speaks of is fenced by it, and a cancellation wins over the status that a checkpoint
brings. -/

namespace Smara.Session.Envelope

open Lib.Table Lib.Transaction
open TaskStore.Schema (Uuid Time)
open TaskStore.Lifecycle (clip)
open TaskStore.Report (hex)
open Goals.Schema (Json)
open Goals.Spec (strip)
open Session.Schema

/-- `SESSION_STATUSES` with `SESSION_STATUS_ALIASES` -/
def sessionStatus : String → Option SessionStatus
  | "created" => some .created
  | "running" => some .running
  | "waiting_approval" => some .waitingApproval
  | "completed" => some .completed
  | "failed" => some .failed
  | "cancelled" => some .cancelled
  | "needs_input" => some .needsInput
  | "budget_exhausted" => some .failed
  | "tool_error" => some .failed
  | "provider_error" => some .failed
  | "interrupted" => some .failed
  | _ => none

/-- A value that is not there or empty is replaced. -/
def orElse (given : Option String) (otherwise : String) : String :=
  match given with
  | none => otherwise
  | some s => if s = "" then otherwise else s

def created (env : Env) (id request : String) : RuntimeSession :=
  { id, request, createdAt := env.now, updatedAt := env.now }

/-- `INSERT OR IGNORE INTO runtime_sessions` -/
def inserted (env : Env) (id request : String) (db : SessionDb) : SessionDb :=
  match db.session id with
  | some _ => db
  | none => { db with sessions := db.sessions ++ [created env id request] }

/-- `sid` -/
def sessionId (fresh : Uuid) (given : Option String) : String :=
  clip 160 (orElse given ("session_" ++ hex fresh))

def createOrGet (env : Env) (fresh : Uuid) (given : Option String) (request : String)
    (db : SessionDb) : Except Err (String × SessionDb) :=
  .ok (sessionId fresh given, inserted env (sessionId fresh given) request db)

def started (env : Env) (request : String) (s : RuntimeSession) : RuntimeSession :=
  { s with
    status := .created
    request := request
    result := .obj []
    unresolved := []
    cancelRequested := false
    cancelReason := none
    updatedAt := env.now }

/-- The second transaction of **`start_turn`**; the first is that of `create_or_get`. -/
def refresh (env : Env) (id request : String) (db : SessionDb) : Except Err (Unit × SessionDb) :=
  .ok ((), db.updSessions (fun s => s.id = id) (started env request))

/-! ### Events -/

/-- The event with the number, and the deletion of the events past the retention. -/
def record (env : Env) (id : String) (sequence : ℕ) (kind : String) (payload : Json)
    (db : SessionDb) : SessionDb :=
  { db with
    sessionEvents :=
      deleteWhere (fun e => e.sessionId = id ∧ e.sequence ≤ sequence - env.host.maxEvents)
        (db.sessionEvents ++ [⟨id, sequence, kind, payload, env.now⟩]) }

def appendEvent (env : Env) (id kind : String) (payload : Json) (db : SessionDb) :
    Except Err (Unit × SessionDb) :=
  let kind := clip 120 (strip (orElse (some kind) "event"))
  if kind = "" then .error (.valueError "event kind is required")
  else
    match db.session id with
    | none => .error (.keyError id)
    | some row =>
      .ok ((), (record env id (row.revision + 1) kind payload db).updSessions (fun s => s.id = id)
        fun s => { s with revision := row.revision + 1, updatedAt := env.now })

/-! ### Checkpoints -/

/-- What a checkpoint writes; what it leaves out stays. -/
structure Checkpoint where
  status : Option String := none
  result : Option Json := none
  unresolved : Option (List String) := none
  event : Option String := none
  eventPayload : Json := .obj []
  expectedTurnId : Option Uuid := none

/-- `SELECT … FROM protocol_turns WHERE thread_id=? ORDER BY created_at DESC LIMIT 1` -/
def latestTurn (id : String) (db : SessionDb) : Option Turn :=
  firstBy (fun t t' => t'.createdAt < t.createdAt) (db.turns.filter fun t => t.threadId = id)

def Current (id : String) (expected : Option Uuid) (db : SessionDb) : Prop :=
  ∀ turnId ∈ expected, ∃ t ∈ latestTurn id db, t.id = turnId ∧ t.status.Active

instance (id : String) (expected : Option Uuid) (db : SessionDb) :
    Decidable (Current id expected db) :=
  inferInstanceAs (Decidable (∀ turnId ∈ expected, _))

def withReason (reason : String) (unresolved : List String) : List String :=
  if reason ∈ unresolved then unresolved else unresolved ++ [reason]

/-- The session after a checkpoint: a cancellation wins. -/
def settled (env : Env) (c : Checkpoint) (status : Option SessionStatus)
    (s : RuntimeSession) : RuntimeSession :=
  let next := status.getD s.status
  let unresolved := (c.unresolved.map (·.map (clip 500))).getD s.unresolved
  let won := s.cancelRequested ∧ next ≠ .cancelled
  { s with
    status := if won then .cancelled else next
    result := c.result.getD s.result
    unresolved :=
      if won then withReason (clip 500 (orElse s.cancelReason "cancelled by user")) unresolved
      else unresolved
    updatedAt := env.now }

def Checkpoint.eventOf (c : Checkpoint) (status : Option SessionStatus) (s : RuntimeSession) :
    Option String :=
  match c.event with
  | none => none
  | some kind =>
    if kind = "" then none
    else if s.cancelRequested ∧ status.getD s.status ≠ .cancelled ∧ ¬ "cancelled".toList <:+ kind.toList then
      some "turn.cancelled"
    else some kind

def checkpointed (env : Env) (c : Checkpoint) (status : Option SessionStatus) (row : RuntimeSession)
    (db : SessionDb) : SessionDb :=
  let written := db.updSessions (fun s => s.id = row.id)
    (settled env c status)
  match c.eventOf status row with
  | none => written
  | some kind =>
    (record env row.id (row.revision + 1) (clip 120 kind) c.eventPayload written).updSessions
      (fun s => s.id = row.id) fun s => { s with revision := row.revision + 1 }

def Checkpoint.named (c : Checkpoint) : Except Err (Option SessionStatus) :=
  match c.status with
  | none => .ok none
  | some text =>
    match sessionStatus text with
    | some s => .ok (some s)
    | none => .error (.valueError ("invalid runtime session status: " ++ text))

def checkpoint (env : Env) (id : String) (c : Checkpoint) (db : SessionDb) :
    Except Err (Unit × SessionDb) := do
  let status ← c.named
  match db.session id with
  | none => throw (.keyError id)
  | some row =>
    if Current id c.expectedTurnId db then return ((), checkpointed env c status row db)
    else return ((), db)

/-! ### Cancellation -/

/-- The writes of a cancellation that takes effect. -/
def cancelled (env : Env) (reason : String) (s : RuntimeSession) : RuntimeSession :=
  { s with
    status := .cancelled
    cancelRequested := true
    cancelReason := some reason
    unresolved := [reason]
    revision := s.revision + 1
    updatedAt := env.now }

def requestCancel (env : Env) (id reason : String) (db : SessionDb) :
    Except Err (Unit × SessionDb) :=
  let reason := clip 500 (orElse (some reason) "cancelled by user")
  match db.session id with
  | none => .error (.keyError id)
  | some row =>
    if row.status.Terminal ∧ row.status ≠ .cancelled then
      .ok ((), (record env id (row.revision + 1) "cancel.ignored"
        (.obj [("reason", .str reason), ("status", .str row.status.text)])
        db).updSessions (fun s => s.id = id)
          fun s => { s with revision := row.revision + 1, updatedAt := env.now })
    else if row.cancelRequested ∧ row.status = .cancelled then .ok ((), db)
    else
      .ok ((), (record env id (row.revision + 1) "turn.cancel_requested"
        (.obj [("reason", .str reason)]) db).updSessions (fun s => s.id = id)
          (cancelled env reason))

def shouldCancel (id : String) (db : SessionDb) : Bool :=
  match db.session id with
  | none => false
  | some s => s.cancelRequested

end Smara.Session.Envelope
