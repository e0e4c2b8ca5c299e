import Smara.Goals.Spec

/-! # The tables of the session ledger

The file of `SQLiteRuntimeSessionStore` holds two ledgers: the envelope of each session with its
lifecycle events (`runtime_sessions`, `runtime_session_events`), and the journal of the protocol: turns,
their items, events and approvals. A thread of the protocol is a session. Turns, items and approvals
are named by draws of `uuid4`.

* `Host` is what a call reads of its process: which owners are alive, and the parts of `_safe` and
  `_encode` that depend on regular expressions and on the JSON encoder.
* `Constraints` are the keys of the schema, with the unique index on active turns. -/

namespace Smara.Session.Schema

open Lib.Table Lib.Transaction
open TaskStore.Schema (Uuid Time Digest)
open Goals.Schema (Json)

/-! ### Sessions -/

inductive SessionStatus
  | created | running | waitingApproval | completed | failed | cancelled | needsInput
  deriving DecidableEq

def SessionStatus.text : SessionStatus → String
  | .created => "created"
  | .running => "running"
  | .waitingApproval => "waiting_approval"
  | .completed => "completed"
  | .failed => "failed"
  | .cancelled => "cancelled"
  | .needsInput => "needs_input"

def SessionStatus.Terminal (s : SessionStatus) : Prop :=
  s = .completed ∨ s = .failed ∨ s = .cancelled ∨ s = .needsInput

instance (s : SessionStatus) : Decidable s.Terminal := inferInstanceAs (Decidable (_ ∨ _ ∨ _ ∨ _))

/-- A row of `runtime_sessions`. -/
structure RuntimeSession where
  id : String
  status : SessionStatus := .created
  request : String := ""
  result : Json := .obj []
  unresolved : List String := []
  createdAt : Time
  updatedAt : Time
  revision : ℕ := 0
  cancelRequested : Bool := false
  cancelReason : Option String := none

/-- A row of `runtime_session_events`. -/
structure SessionEvent where
  sessionId : String
  sequence : ℕ
  kind : String
  payload : Json
  createdAt : Time

/-! ### Turns -/

inductive TurnStatus
  | running | waitingApproval | completed | failed | cancelled | needsInput
  deriving DecidableEq

def TurnStatus.Active (s : TurnStatus) : Prop := s = .running ∨ s = .waitingApproval

instance (s : TurnStatus) : Decidable s.Active := inferInstanceAs (Decidable (_ ∨ _))

def TurnStatus.text : TurnStatus → String
  | .running => "running"
  | .waitingApproval => "waiting_approval"
  | .completed => "completed"
  | .failed => "failed"
  | .cancelled => "cancelled"
  | .needsInput => "needs_input"

/-- A row of `protocol_turns`. -/
structure Turn where
  id : Uuid
  threadId : String
  status : TurnStatus
  createdAt : Time
  endedAt : Option Time := none
  ownerPid : Option ℕ
  deriving DecidableEq

inductive ItemStatus
  | running | completed | failed | cancelled
  deriving DecidableEq

def ItemStatus.text : ItemStatus → String
  | .running => "running"
  | .completed => "completed"
  | .failed => "failed"
  | .cancelled => "cancelled"

/-- A row of `protocol_items`. -/
structure Item where
  id : Uuid
  turnId : Uuid
  kind : String
  status : ItemStatus
  payload : Json

inductive EventKind
  | turnStarted | turnInterrupted | turnCompleted | turnContext | turnProgress
  | itemStarted | itemCompleted | itemDelta
  | approvalRequested | approvalResolved
  deriving DecidableEq

/-- A row of `protocol_events`. -/
structure Event where
  sequence : ℕ
  threadId : String
  turnId : Uuid
  kind : EventKind
  payload : Json
  createdAt : Time

inductive Decision
  | pending | allow | deny | expired
  deriving DecidableEq

def Decision.text : Decision → String
  | .pending => "pending"
  | .allow => "allow"
  | .deny => "deny"
  | .expired => "expired"

/-- A row of `protocol_approvals`. -/
structure Approval where
  id : Uuid
  turnId : Uuid
  itemId : Uuid
  actionSha256 : Digest
  action : Json
  decision : Decision
  createdAt : Time

/-! ### The database -/

/-- The database. `eventSeq` is the last number that `AUTOINCREMENT` has given to an event. -/
structure SessionDb where
  sessions : List RuntimeSession := []
  sessionEvents : List SessionEvent := []
  turns : List Turn := []
  items : List Item := []
  events : List Event := []
  eventSeq : ℕ := 0
  approvals : List Approval := []

inductive Err
  | valueError (message : String)
  | runtimeError (message : String)
  | keyError (id : String)
  | typeError
  | integrityError
  deriving DecidableEq

/-- `str` of an exception -/
def Err.text : Err → String
  | .valueError message => message
  | .runtimeError message => message
  | .keyError id => "'" ++ id ++ "'"
  | .typeError => "'NoneType' object is not subscriptable"
  | .integrityError => "UNIQUE constraint failed"

/-- What a call reads of its process. -/
structure Host where
  /-- `os.getpid()` -/
  pid : ℕ
  /-- `_owner_alive` -/
  alive : ℕ → Bool
  /-- `max_events` of its store -/
  maxEvents : ℕ
  /-- `json.dumps(value, ensure_ascii=False, sort_keys=True, default=str)` -/
  encode : Json → String
  hexdigest : Digest → String
  /-- the search of a key for `secret`, `password`, `api_key`, `authorization` or a token -/
  secretKey : String → Bool
  /-- a text without the tokens `sk_…` -/
  redact : String → String
  /-- `str` of a value that is not a text -/
  repr : Json → String

/-- The clock and the process of one call. -/
structure Env where
  now : Time
  host : Host

mutual

def safe (host : Host) : Json → Json
  | .obj members => .obj (safeMembers host members)
  | .arr items => .arr (safeItems host items)
  | .str s => .str (host.redact s)
  | value => value

def safeItems (host : Host) : List Json → List Json
  | [] => []
  | item :: items => safe host item :: safeItems host items

def safeMembers (host : Host) : List (String × Json) → List (String × Json)
  | [] => []
  | (key, value) :: members =>
    (key, if host.secretKey key then .str "[redacted]" else safe host value) ::
      safeMembers host members

end

def truthy : Json → Bool
  | .null => false
  | .bool b => b
  | .num n => n ≠ 0
  | .str s => s ≠ ""
  | .arr items => ¬ items.isEmpty
  | .obj members => ¬ members.isEmpty

/-- `value.get(key)` of a dictionary -/
def get (key : String) : Json → Option Json
  | .obj members => (lookup Prod.fst key members).map Prod.snd
  | _ => none

/-- `str(value)` -/
def textOf (host : Host) : Json → String
  | .str s => s
  | value => host.repr value

/-- `{**members, **value}` -/
def merged (members : List (String × Json)) : Json → Json
  | .obj more => .obj (more.foldl (fun ms m => upsert Prod.fst m (fun _ => m) ms) members)
  | _ => .obj members

namespace SessionDb

def session (db : SessionDb) (id : String) : Option RuntimeSession := lookup RuntimeSession.id id db.sessions

def turn (db : SessionDb) (id : Uuid) : Option Turn := lookup Turn.id id db.turns

def item (db : SessionDb) (id : Uuid) : Option Item := lookup Item.id id db.items

def approval (db : SessionDb) (id : Uuid) : Option Approval := lookup Approval.id id db.approvals

def updSessions (p : RuntimeSession → Prop) [DecidablePred p] (f : RuntimeSession → RuntimeSession)
    (db : SessionDb) : SessionDb :=
  { db with sessions := updateWhere p f db.sessions }

def updTurns (p : Turn → Prop) [DecidablePred p] (f : Turn → Turn) (db : SessionDb) : SessionDb :=
  { db with turns := updateWhere p f db.turns }

def updItems (p : Item → Prop) [DecidablePred p] (f : Item → Item) (db : SessionDb) : SessionDb :=
  { db with items := updateWhere p f db.items }

def updApprovals (p : Approval → Prop) [DecidablePred p] (f : Approval → Approval) (db : SessionDb) :
    SessionDb :=
  { db with approvals := updateWhere p f db.approvals }

def event (threadId : String) (turnId : Uuid) (kind : EventKind) (payload : Json) (now : Time)
    (db : SessionDb) : SessionDb :=
  { db with
    events := db.events ++ [⟨db.eventSeq + 1, threadId, turnId, kind, payload, now⟩]
    eventSeq := db.eventSeq + 1 }

/-- The keys of the schema; `single` is the index `protocol_single_turn`. -/
structure Constraints (db : SessionDb) : Prop where
  sessions : Keyed RuntimeSession.id db.sessions
  sessionEvents : Keyed (fun e => (e.sessionId, e.sequence)) db.sessionEvents
  turns : Keyed Turn.id db.turns
  single : Keyed Turn.threadId (db.turns.filter fun t => t.status.Active)
  items : Keyed Item.id db.items
  approvals : Keyed Approval.id db.approvals

theorem constraints_iff (db : SessionDb) : Constraints db ↔
    Keyed RuntimeSession.id db.sessions ∧ Keyed (fun e => (e.sessionId, e.sequence)) db.sessionEvents ∧
    Keyed Turn.id db.turns ∧ Keyed Turn.threadId (db.turns.filter fun t => t.status.Active) ∧
    Keyed Item.id db.items ∧ Keyed Approval.id db.approvals :=
  ⟨fun ⟨a, b, c, d, e, f⟩ => ⟨a, b, c, d, e, f⟩, fun ⟨a, b, c, d, e, f⟩ => ⟨a, b, c, d, e, f⟩⟩

instance (db : SessionDb) : Decidable db.Constraints := decidable_of_iff _ (constraints_iff db).symm

end SessionDb

def transaction {β : Type} (body : SessionDb → Except Err (β × SessionDb)) :
    SessionDb → Except Err β × SessionDb :=
  commit SessionDb.Constraints .integrityError body

theorem transaction_eq {β : Type} (body : SessionDb → Except Err (β × SessionDb)) (db : SessionDb) :
    (∃ b db', body db = .ok (b, db') ∧ db'.Constraints ∧ transaction body db = (.ok b, db')) ∨
      ∃ e, transaction body db = (.error e, db) := commit_eq _ _ body db

end Smara.Session.Schema
