import Smara.Lib.Machine
import Smara.Session.Protocol

/-! # Workers, clients and their steps

A call of several transactions is taken step by step, so that the steps of other calls, of this
process or of others, may come between. `World` is the database with the objects `ProtocolTurn` and
the calls in flight: executions of tools, and the rest of a `begin`, a `bind_execution`, a
`text_delta` or an `interrupt`. A process that ends leaves its calls where they are.

The lock of a turn orders its calls of `text_delta` and `finish`; steps in any order include those. -/

namespace Smara.Session.Steps

open Lib.Machine Lib.Table Lib.Transaction
open TaskStore.Schema (Uuid Time Digest)
open Goals.Schema (Json Uuids)
open Session.Schema Session.Envelope Session.Protocol

/-! ### `execute` -/

def readTools : List String :=
  ["file_read", "list_directory", "search_files", "code_graph", "calculate",
   "web_search", "web_extract", "skills_list", "skill_view", "todo",
   "local_file_read", "local_file_search", "local_system_info", "local_time",
   "process_poll", "browser_observe", "browser_tabs", "browser_scroll",
   "research_plan", "research_search", "research_fetch", "research_gather", "research_inspect",
   "research_analyze", "research_resolve", "research_validate", "research_ingest_file",
   "research_ingest_pdf_collection", "academic_search", "academic_fulltext",
   "browser_open", "browser_navigate", "browser_switch", "browser_close"]

/-- The object `ProtocolTurn`. -/
structure ProtocolTurn where
  threadId : String
  turnId : Uuid
  mode : ApprovalMode
  /-- whether it has an `approval_handler` -/
  handler : Bool
  messageId : Option Uuid := none

/-- Where an execution stands: what it does next. -/
inductive Phase
  /-- ask for the approval, if the tool needs one -/
  | begun
  /-- record in the envelope that the turn waits -/
  | requested
  /-- call the handler, and respond with what it returns -/
  | handing
  /-- `should_cancel` in the loop of `_approve` -/
  | polling
  /-- read the status of the turn -/
  | checking
  /-- read the decision -/
  | reading
  /-- the transaction of a timeout -/
  | expiring
  /-- count what is pending -/
  | counting (decision : Decision)
  | resuming (decision : Decision)
  /-- record in the envelope that the turn runs -/
  | reporting (decision : Decision)
  /-- `should_cancel` before the action -/
  | ready
  /-- run the action -/
  | acting
  /-- complete the item -/
  | closing (payload : Json) (status : ItemStatus)
  | ended

/-- The approval that an execution asks for. -/
structure Asked where
  approvalId : Uuid
  digest : Digest

/-- A call of `execute`, once its item is recorded. -/
structure Execution where
  threadId : String
  turnId : Uuid
  mode : ApprovalMode
  handler : Bool
  itemId : Uuid
  name : String
  arguments : Json
  asked : Option Asked := none
  phase : Phase := .begun

/-- What a call of the handler, or of the action, comes to. -/
inductive Called (α : Type)
  | raises (message : String)
  | returns (value : α)
  deriving DecidableEq

/-- What a step of an execution meets: whether the deadline has passed, what the handler returns, and
what the action returns. -/
structure Meets where
  late : Bool := false
  handled : Called String := .raises ""
  result : Called Json := .raises ""

def NeedsApproval (e : Execution) : Prop := e.mode = .ask ∧ e.name ∉ readTools

instance (e : Execution) : Decidable (NeedsApproval e) := inferInstanceAs (Decidable (_ ∧ _))

/-- Whether the result of an action says that it has failed. -/
def failedResult (result : Json) : Bool :=
  match result with
  | .obj _ =>
    ((get "error" result).map truthy).getD false ||
      (match get "ok" result with
        | some (.bool false) => true
        | _ => false) ||
      (match get "success" result with
        | some (.bool false) => true
        | _ => false)
  | .str s =>
    "Error:".toList <+: s.toList ∨ "Denied:".toList <+: s.toList ∨
      "File Read Error:".toList <+: s.toList
  | _ => false

namespace Execution

def enter (e : Execution) (phase : Phase) : Execution := { e with phase := phase }

def fail (e : Execution) (message : String) : Execution :=
  e.enter (.closing (.obj [("name", .str e.name), ("error", .str message)]) .failed)

def transact {β : Type} (e : Execution) (body : SessionDb → Except Err (β × SessionDb))
    (k : β → Execution) (db : SessionDb) : Execution × SessionDb :=
  match transaction body db with
  | (.ok b, db') => (k b, db')
  | (.error err, db') => (e.fail err.text, db')

/-- What follows the end of the waiting. -/
def decided (e : Execution) (decision : Decision) : Execution :=
  if decision = .allow then e.enter .ready
  else e.fail ("Action approval " ++ decision.text ++ "; tool was not executed")

/-- `_approve`, from the draw of the id of the approval to its receipt. -/
def request (env : Env) (fresh : Uuid) (e : Execution) (db : SessionDb) : Execution × SessionDb :=
  e.transact (requestApproval env fresh e.threadId e.turnId e.itemId e.name e.arguments)
    (fun _ => { e with
      asked := some ⟨fresh, digestOf env e.name e.arguments⟩
      phase := .requested }) db

def handle (env : Env) (handled : Called String) (e : Execution) (db : SessionDb) :
    Execution × SessionDb :=
  match e.asked, handled with
  | none, _ => (e.fail Err.typeError.text, db)
  | some _, .raises message => (e.fail message, db)
  | some a, .returns decision =>
    e.transact (respond env e.threadId a.approvalId e.turnId a.digest decision)
      (fun _ => e.enter .polling) db

/-- The status of the turn in the loop of `_approve`. -/
def check (e : Execution) (db : SessionDb) : Execution :=
  match db.turn e.turnId with
  | none => e.fail Err.typeError.text
  | some t => if t.status.Active then e.enter .reading else e.fail "Turn is no longer active"

/-- The decision in the loop of `_approve`. -/
def read (late : Bool) (e : Execution) (db : SessionDb) : Execution :=
  match e.asked.bind fun a => db.approval a.approvalId with
  | none => e.fail Err.typeError.text
  | some a =>
    if a.decision ≠ .pending then e.enter (.counting a.decision)
    else if late then e.enter .expiring
    else e.enter .polling

/-- The timeout. -/
def expire (env : Env) (e : Execution) (db : SessionDb) : Execution × SessionDb :=
  match e.asked with
  | none => (e.fail Err.typeError.text, db)
  | some a =>
    e.transact (expireApproval env e.threadId e.turnId a.approvalId)
      (fun decision => e.enter (.counting decision)) db

def report (env : Env) (status : String) (k : Execution) (e : Execution) (db : SessionDb) :
    Execution × SessionDb :=
  e.transact (checkpoint env e.threadId { status := some status, expectedTurnId := some e.turnId })
    (fun _ => k) db

def act (result : Called Json) (e : Execution) : Execution :=
  match result with
  | .raises message => e.fail message
  | .returns value =>
    e.enter (.closing (.obj [("name", .str e.name), ("result", value)])
      (if failedResult value then .failed else .completed))

/-- **One step of `execute`.** -/
def advance (env : Env) (fresh : Uuid) (m : Meets) (e : Execution) (db : SessionDb) :
    Execution × SessionDb :=
  match e.phase with
  | .begun => if NeedsApproval e then e.request env fresh db else (e.enter .ready, db)
  | .requested =>
    report env "waiting_approval" (if e.handler then e.enter .handing else e.enter .polling) e db
  | .handing => e.handle env m.handled db
  | .polling =>
    if shouldCancel e.threadId db then (e.fail "Turn cancelled while awaiting approval", db)
    else (e.enter .checking, db)
  | .checking => (e.check db, db)
  | .reading => (e.read m.late db, db)
  | .expiring => e.expire env db
  | .counting decision =>
    if Pending e.turnId db then (e.decided decision, db) else (e.enter (.resuming decision), db)
  | .resuming decision => e.transact (resumeTurn e.turnId) (fun _ => e.enter (.reporting decision)) db
  | .reporting decision => report env "running" (e.decided decision) e db
  | .ready =>
    if shouldCancel e.threadId db then (e.fail "Turn cancelled before tool execution", db)
    else (e.enter .acting, db)
  | .acting => (e.act m.result, db)
  | .closing payload status =>
    (e.enter .ended, (transaction (completeItem env e.threadId e.turnId e.itemId payload status) db).2)
  | .ended => (e, db)

end Execution

/-! ### Other calls -/

/-- What is left of a call. -/
inductive Rest
  /-- `item`, then `complete_item`: the end of `begin`, and `bind_execution` -/
  | record (threadId : String) (turnId : Uuid) (kind : String) (payload : Json)
  | complete (threadId : String) (turnId itemId : Uuid) (payload : Json)
  /-- the second transaction of `text_delta` -/
  | delta (threadId : String) (turnId messageId : Uuid) (text : String)
  /-- the second transaction of `interrupt` -/
  | endActive (threadId : String)
  /-- the second transaction of `start_turn` -/
  | refresh (id request : String)
  | nothing

/-- The next step of a call. -/
def Rest.advance (env : Env) (fresh : Uuid) (db : SessionDb) : Rest → Rest × SessionDb
  | .record threadId turnId kind payload =>
    match transaction (item env fresh threadId turnId kind payload) db with
    | (.ok _, db') => (.complete threadId turnId fresh payload, db')
    | (.error _, db') => (.nothing, db')
  | .complete threadId turnId itemId payload =>
    (.nothing, (transaction (completeItem env threadId turnId itemId payload .completed) db).2)
  | .delta threadId turnId messageId text =>
    (.nothing, (transaction (Protocol.delta env threadId turnId messageId text) db).2)
  | .endActive threadId => (.nothing, (transaction (Protocol.endActive env threadId) db).2)
  | .refresh id request => (.nothing, (transaction (Envelope.refresh env id request) db).2)
  | .nothing => (.nothing, db)

/-! ### Runs -/

/-- A call, or a step of one. Turns, executions and calls are named by their positions. -/
inductive Op
  | createOrGet (env : Env) (id : Option String) (request : String)
  | startTurn (env : Env) (id : Option String) (request : String)
  | appendEvent (env : Env) (id kind : String) (payload : Json)
  | checkpoint (env : Env) (id : String) (c : Checkpoint)
  | requestCancel (env : Env) (id reason : String)
  | begin (env : Env) (threadId request mode : String) (handler : Bool)
  | respond (env : Env) (threadId : String) (approvalId turnId : Uuid) (sha256 : Digest)
      (decision : String)
  | interrupt (env : Env) (threadId : String)
  | bindExecution (k : ℕ) (sessionId workspace : String)
  | item (env : Env) (k : ℕ) (kind : String) (payload : Json)
  | completeItem (env : Env) (k : ℕ) (itemId : Uuid) (payload : Json) (failed : Bool)
  | execute (env : Env) (k : ℕ) (name : String) (arguments : Json)
  | textDelta (env : Env) (k : ℕ) (text : String)
  | progress (env : Env) (k : ℕ) (kind : String) (data : Json)
  | finish (env : Env) (k : ℕ) (status answer : String)
  | step (env : Env) (j : ℕ) (m : Meets)
  | rest (env : Env) (j : ℕ)

/-- The database, the draws so far, the turns and the calls in flight. -/
structure World where
  db : SessionDb := {}
  drawn : ℕ := 0
  turns : List ProtocolTurn := []
  executions : List Execution := []
  calls : List Rest := []

def World.write {β : Type} (w : World) (body : SessionDb → Except Err (β × SessionDb)) : World :=
  { w with db := (transaction body w.db).2, drawn := w.drawn + 1 }

/-- The world after a transaction; what follows it if it commits. -/
def World.andThen {β : Type} (w : World) (body : SessionDb → Except Err (β × SessionDb))
    (k : β → World → World) : World :=
  match transaction body w.db with
  | (.ok b, db') => k b { w with db := db', drawn := w.drawn + 1 }
  | (.error _, db') => { w with db := db', drawn := w.drawn + 1 }

def World.call (rest : Rest) (w : World) : World := { w with calls := w.calls ++ [rest] }

def World.textDelta (env : Env) (fresh : Uuid) (k : ℕ) (turn : ProtocolTurn) (text : String)
    (w : World) : World :=
  match turn.messageId with
  | some messageId => w.write (delta env turn.threadId turn.turnId messageId text)
  | none =>
    w.andThen (item env fresh turn.threadId turn.turnId "agent_message" (.obj [("text", .str "")]))
      fun _ w => World.call (.delta turn.threadId turn.turnId fresh text)
        { w with turns := w.turns.modify k fun turn => { turn with messageId := some fresh } }

def World.progress (env : Env) (fresh : Uuid) (k : ℕ) (turn : ProtocolTurn) (kind : String)
    (data : Json) (w : World) : World :=
  match if kind = "answer" then (get "answer" data).filter truthy else none with
  | some answer => w.textDelta env fresh k turn (textOf env.host answer)
  | none =>
    if journaled kind then w.write (Protocol.progress env turn.threadId turn.turnId kind data)
    else w

def World.onTurn (w : World) (k : ℕ) (call : ProtocolTurn → World) : World :=
  match w.turns[k]? with
  | none => w
  | some turn => call turn

/-- **One step.** -/
def next (uuids : Uuids) (w : World) : Op → World
  | .createOrGet env id request => w.write (createOrGet env (uuids.draw w.drawn) id request)
  | .startTurn env id request =>
    w.andThen (createOrGet env (uuids.draw w.drawn) id request)
      fun id => World.call (.refresh id request)
  | .appendEvent env id kind payload => w.write (appendEvent env id kind payload)
  | .checkpoint env id c => w.write (checkpoint env id c)
  | .requestCancel env id reason => w.write (requestCancel env id reason)
  | .begin env threadId request mode handler =>
    let turnId := uuids.draw w.drawn
    w.andThen (begin env turnId threadId request mode) fun mode w =>
      World.call
        (.record threadId turnId "user_message" (.obj [("text", .str (env.host.redact request))]))
        { w with turns := w.turns ++ [{ threadId, turnId, mode, handler }] }
  | .respond env threadId approvalId turnId sha256 decision =>
    w.write (respond env threadId approvalId turnId sha256 decision)
  | .interrupt env threadId =>
    w.andThen (requestCancel env threadId "cancelled by user")
      fun _ => World.call (.endActive threadId)
  | .bindExecution k sessionId workspace =>
    w.onTurn k fun turn => World.call (.record turn.threadId turn.turnId "execution_checkpoint"
      (.obj [("session_id", .str sessionId), ("workspace", .str workspace)])) w
  | .item env k kind payload =>
    w.onTurn k fun turn =>
      w.write (item env (uuids.draw w.drawn) turn.threadId turn.turnId kind payload)
  | .completeItem env k itemId payload failed =>
    w.onTurn k fun turn => w.write (completeItem env turn.threadId turn.turnId itemId payload
      (if failed then .failed else .completed))
  | .execute env k name arguments =>
    let itemId := uuids.draw w.drawn
    w.onTurn k fun turn =>
      w.andThen (item env itemId turn.threadId turn.turnId "tool_execution"
          (actionOf name arguments))
        fun _ w => { w with
          executions := w.executions ++ [{
            threadId := turn.threadId
            turnId := turn.turnId
            mode := turn.mode
            handler := turn.handler
            itemId
            name
            arguments }] }
  | .textDelta env k text =>
    w.onTurn k fun turn => w.textDelta env (uuids.draw w.drawn) k turn text
  | .progress env k kind data =>
    w.onTurn k fun turn => w.progress env (uuids.draw w.drawn) k turn kind data
  | .finish env k status answer =>
    let fresh := uuids.draw w.drawn
    w.onTurn k fun turn =>
      w.andThen (finish env fresh turn.threadId turn.turnId turn.messageId status answer)
        fun messageId w =>
          { w with turns := w.turns.modify k fun turn => { turn with messageId := messageId } }
  | .step env j m =>
    match w.executions[j]? with
    | none => w
    | some e =>
      let r := e.advance env (uuids.draw w.drawn) m w.db
      { w with db := r.2, drawn := w.drawn + 1, executions := w.executions.set j r.1 }
  | .rest env j =>
    match w.calls[j]? with
    | none => w
    | some call =>
      let r := call.advance env (uuids.draw w.drawn) w.db
      { w with db := r.2, drawn := w.drawn + 1, calls := w.calls.set j r.1 }

abbrev after (uuids : Uuids) (ops : List Op) : World := run (next uuids) {} ops

/-! ### A process for runs on given calls -/

/-- The process 1; the process 9 has ended. -/
def process : Host where
  pid := 1
  alive := fun pid => pid ≠ 9
  maxEvents := 32
  encode := fun _ => ""
  hexdigest := fun _ => ""
  secretKey := fun _ => false
  redact := id
  repr := fun _ => ""

def clock (now : Time) : Env := ⟨now, process⟩

def ids : Uuids := ⟨id, Function.injective_id⟩

/-- A session with a turn, whose request is recorded. -/
def firstSteps : List Op :=
  [.createOrGet (clock 1) (some "chat") "Create a note",
   .begin (clock 2) "chat" "Create a note" "auto" false,
   .rest (clock 3) 0, .rest (clock 4) 0]

end Smara.Session.Steps
