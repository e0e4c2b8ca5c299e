import Mathlib.Data.List.Sort
import Smara.Goals.Schema
import Smara.Lib.Scripts

/-! # The journal of a session

`SessionEngine` keeps a session in a database of its own: the table `state` of values under keys,
`calls`, `events` and `evidence`. The connection is in autocommit mode, so every statement is durable
when the next one begins.

* `Journal` is the database, `Ask` what the engine asks of its machine, `Answer` the answers.
* A text that is read back as JSON is kept as the value it encodes; a time counts microseconds, an
  amount in dollars millionths.
* `ofDict_asdict`: a result is read back from its receipt as it was. -/

namespace Smara.Harness.Schema

open Lib.Table Lib.Scripts
open TaskStore.Schema (Time seconds)
open Goals.Schema (Json)

/-! ### Constants -/

def mutatingTools : List String :=
  ["write_file", "patch_file", "run_process", "process_start", "process_write", "process_stdin"]

def verifyScopes : List String := ["syntax", "focused", "full"]

def reusableReadTools : List String :=
  ["read_file", "file_read", "list_directory", "search_files", "code_graph", "pdf_search",
   "skills_list", "skill_view"]

def webOnlyTools : List String :=
  ["research_plan", "research_search", "research_fetch", "research_inspect", "research_gather",
   "research_analyze", "research_resolve", "research_validate", "research_report"]

inductive RunStatus
  | completed | needsInput | denied | cancelled | budgetExhausted | providerError | toolError
  | interrupted
  deriving DecidableEq

def RunStatus.text : RunStatus → String
  | .completed => "completed"
  | .needsInput => "needs_input"
  | .denied => "denied"
  | .cancelled => "cancelled"
  | .budgetExhausted => "budget_exhausted"
  | .providerError => "provider_error"
  | .toolError => "tool_error"
  | .interrupted => "interrupted"

inductive Err
  | budgetExceeded (what : String)
  | valueError (message : String)
  | runtimeError (message : String)
  | typeError (message : String)
  | integrityError
  | osError
  | keyboardInterrupt
  /-- what the executor raised -/
  | executorError (kind message : String)
  deriving DecidableEq

/-! ### Calls and results -/

abbrev Dict := List (String × Json)

def field (key : String) (d : Dict) : Option Json := (lookup Prod.fst key d).map Prod.snd

structure ToolCall where
  callId : String
  name : String
  arguments : Dict
  workspaceId : String

structure ToolResult where
  callId : String
  status : String
  text : String := ""
  artifacts : List String := []
  exitCode : Option ℤ := none
  durationMs : ℤ := 0
  changedPaths : List String := []
  beforeRevision : Option String := none
  afterRevision : Option String := none
  errorKind : Option String := none
  metadata : Dict := []

namespace ToolResult

def Ok (r : ToolResult) : Prop := r.status = "ok" ∧ (r.exitCode = none ∨ r.exitCode = some 0)

instance (r : ToolResult) : Decidable r.Ok := inferInstanceAs (Decidable (_ ∧ _))

def asdict (r : ToolResult) : Dict :=
  [("call_id", .str r.callId), ("status", .str r.status), ("text", .str r.text),
   ("artifacts", .arr (r.artifacts.map .str)), ("exit_code", (r.exitCode.map .num).getD .null),
   ("duration_ms", .num r.durationMs), ("changed_paths", .arr (r.changedPaths.map .str)),
   ("before_revision", (r.beforeRevision.map .str).getD .null),
   ("after_revision", (r.afterRevision.map .str).getD .null),
   ("error_kind", (r.errorKind.map .str).getD .null), ("meta", .obj r.metadata)]

/-- The arguments of the constructor. -/
def keys : List String :=
  ["call_id", "status", "text", "artifacts", "exit_code", "duration_ms", "changed_paths",
   "before_revision", "after_revision", "error_kind", "meta"]

end ToolResult

def asText : Json → Option String
  | .str s => some s
  | _ => none

def asTexts : Json → Option (List String)
  | .arr items => items.mapM asText
  | _ => none

def asInt : Json → Option ℤ
  | .num n => some n
  | _ => none

def asDict : Json → Option Dict
  | .obj members => some members
  | _ => none

/-- A value that may be `None`. -/
def orNull {α : Type} (f : Json → Option α) : Json → Option (Option α)
  | .null => some none
  | value => (f value).map some

def argument {α : Type} (key : String) (f : Json → Option α) (default : α) (d : Dict) : Option α :=
  match field key d with
  | none => some default
  | some value => f value

/-- **`ToolResult(**d)`**: an unknown key or a missing one is a `TypeError`. The types are those of a
receipt. -/
def ToolResult.ofDict (d : Dict) : Option ToolResult :=
  if ∀ m ∈ d, m.1 ∈ ToolResult.keys then do
    let callId ← (field "call_id" d).bind asText
    let status ← (field "status" d).bind asText
    let text ← argument "text" asText "" d
    let artifacts ← argument "artifacts" asTexts [] d
    let exitCode ← argument "exit_code" (orNull asInt) none d
    let durationMs ← argument "duration_ms" asInt 0 d
    let changedPaths ← argument "changed_paths" asTexts [] d
    let beforeRevision ← argument "before_revision" (orNull asText) none d
    let afterRevision ← argument "after_revision" (orNull asText) none d
    let errorKind ← argument "error_kind" (orNull asText) none d
    let metadata ← argument "meta" asDict [] d
    return { callId, status, text, artifacts, exitCode, durationMs, changedPaths, beforeRevision,
             afterRevision, errorKind, metadata }
  else none

theorem asTexts_map (texts : List String) : asTexts (.arr (texts.map .str)) = some texts := by
  change (texts.map Json.str).mapM asText = some texts
  induction texts with
  | nil => rfl
  | cons text texts ih =>
    rw [List.map_cons, List.mapM_cons, ih]
    rfl

theorem orNull_getD {α : Type} {f : Json → Option α} {g : α → Json} (h : ∀ a, f (g a) = some a)
    (hg : ∀ a, g a ≠ .null) (a : Option α) : orNull f ((a.map g).getD .null) = some a := by
  cases a with
  | none => rfl
  | some a =>
    have hne := hg a
    have ha := h a
    simp only [Option.map_some, Option.getD_some]
    cases hj : g a <;> simp_all [orNull]

/-- **A result comes back from its dictionary.** -/
theorem ToolResult.ofDict_asdict (r : ToolResult) : ToolResult.ofDict r.asdict = some r := by
  have hkeys : ∀ m ∈ r.asdict, m.1 ∈ ToolResult.keys := by
    simp [ToolResult.asdict, ToolResult.keys]
  have hexit := orNull_getD (f := asInt) (g := Json.num) (fun _ => rfl) (fun _ h => nomatch h) r.exitCode
  have htext := orNull_getD (f := asText) (g := Json.str) (fun _ => rfl) (fun _ h => nomatch h)
  unfold ToolResult.ofDict
  rw [if_pos hkeys]
  simp [ToolResult.asdict, field, argument, lookup, asText, asInt, asDict, asTexts_map, hexit, htext]

/-- The receipt of a result: `{**asdict(result), "artifact_id": aid}`. -/
def receiptOf (r : ToolResult) (aid : String) : Dict := r.asdict ++ [("artifact_id", .str aid)]

/-- `{k: v for k, v in receipt.items() if k != "artifact_id"}` -/
def withoutArtifact (d : Dict) : Dict := d.filter fun m => m.1 ≠ "artifact_id"

theorem withoutArtifact_receiptOf (r : ToolResult) (aid : String) :
    withoutArtifact (receiptOf r aid) = r.asdict := by
  simp [withoutArtifact, receiptOf, ToolResult.asdict]

/-! ### The progress of a session -/

structure ProgressRecord where
  fingerprint : String
  callId : String
  tool : String
  subjectRevision : String
  resultHash : String
  passed : Bool
  materialProgress : Bool
  reason : String
  deriving DecidableEq

def ProgressRecord.asdict (r : ProgressRecord) : Dict :=
  [("fingerprint", .str r.fingerprint), ("call_id", .str r.callId), ("tool", .str r.tool),
   ("subject_revision", .str r.subjectRevision), ("result_hash", .str r.resultHash),
   ("passed", .bool r.passed), ("material_progress", .bool r.materialProgress),
   ("reason", .str r.reason)]

/-- The last `n` records. -/
def lastRecords (n : ℕ) (records : List ProgressRecord) : List ProgressRecord :=
  records.drop (records.length - n)

/-- **`classify`**, at its default limits: an action and its reason. -/
def classify (window : List ProgressRecord) (current : ProgressRecord) : Option String × String :=
  let records := window ++ [current]
  let same := records.filter fun r => r.fingerprint = current.fingerprint
  let tail := lastRecords 6 records
  let revisions := lastRecords 4 records
  let churn := (lastRecords 4 records).filter fun r => r.tool = "todo" ∧ ¬ r.materialProgress
  let mutationTools := ["write_file", "file_write", "patch_file", "patch"]
  let reverts : Bool := match revisions.map ProgressRecord.subjectRevision with
    | [a, b, c, d] => a = c ∧ b = d ∧ a ≠ b
    | _ => false
  if ¬ current.passed ∧ 3 ≤ same.length then (some "stop", "repeated_identical_failure")
  else if 6 ≤ tail.length ∧ (tail.map ProgressRecord.fingerprint).dedup.length = 2 ∧
      ∀ r ∈ tail, ¬ r.materialProgress then (some "recover", "alternating_call_loop")
  else if reverts ∧ ∀ r ∈ revisions, r.tool ∈ mutationTools then (some "recover", "edit_revert_cycle")
  else if 4 ≤ churn.length then (some "recover", "todo_churn")
  else (none, "")

/-! ### Budgets -/

/-- A budget that its constructor accepts. -/
structure Budget where
  wallSeconds : Time := seconds 60
  toolCalls : ℕ := 20
  modelCalls : ℕ := 10
  billedTokens : ℕ := 100000
  dollars : ℤ := 1000000
  valid : 0 < wallSeconds ∧ 0 ≤ dollars := by decide

def Budget.asdict (b : Budget) : Dict :=
  [("wall_seconds", .num b.wallSeconds), ("tool_calls", .num b.toolCalls),
   ("model_calls", .num b.modelCalls), ("billed_tokens", .num b.billedTokens),
   ("dollars", .num b.dollars)]

/-- What a session has spent; a key that is missing counts as `0`. -/
structure Usage where
  toolCalls : ℕ := 0
  modelCalls : ℕ := 0
  billedTokens : ℕ := 0
  dollars : ℤ := 0
  deriving DecidableEq

def Usage.asdict (u : Usage) : Dict :=
  [("tool_calls", .num u.toolCalls), ("model_calls", .num u.modelCalls),
   ("billed_tokens", .num u.billedTokens), ("dollars", .num u.dollars)]

structure ModelReservation where
  estimatedTokens : ℕ
  estimatedDollars : ℤ
  attempts : ℕ

/-- A reservation for a child: `none` while its usage is not known. -/
structure ChildReservation where
  budget : Budget
  depth : ℕ
  usage : Option Usage := none

/-- `item["status"] == "reserved"` -/
def ChildReservation.Reserved (c : ChildReservation) : Prop := c.usage = none

instance (c : ChildReservation) : Decidable c.Reserved := inferInstanceAs (Decidable (_ = none))

/-! ### The journal -/

inductive CallState
  | pending | admitted | completed
  deriving DecidableEq

structure CallRow where
  callId : String
  position : ℕ
  name : String
  arguments : Dict
  workspaceId : String
  mutating : Bool
  state : CallState
  result : Option Dict := none
  beforeRevision : Option String := none
  afterRevision : Option String := none

/-- A row of `evidence`. -/
structure Evidence where
  id : String
  callId : String
  scope : String
  subjectRevision : String
  passed : Bool
  sourceArtifactId : String
  createdAt : Time

def Evidence.asdict (e : Evidence) : Dict :=
  [("id", .str e.id), ("call_id", .str e.callId), ("kind", .str "test"), ("scope", .str e.scope),
   ("subject_revision", .str e.subjectRevision), ("passed", .bool e.passed),
   ("source_artifact_id", .str e.sourceArtifactId), ("created_at", .num e.createdAt)]

/-- A row of `events`. -/
structure RunEvent where
  type : String
  payload : Dict
  createdAt : Time

structure RunResult where
  status : RunStatus
  answer : String
  verification : List Dict
  usage : Usage
  unresolvedItems : List String

/-- The table `state`, with a field for each key. -/
structure State where
  request : Option String := none
  startedWall : Option Time := none
  pausedSeconds : Time := 0
  pausedAt : Option Time := none
  usage : Usage := {}
  budget : Option Budget := none
  result : Option RunResult := none
  cancelled : Bool := false
  toolProfile : Option String := none
  fullWorkspaceRevisionRequired : Bool := false
  receiptCache : List (String × Dict) := []
  receiptReuseCounts : List (String × ℕ) := []
  progressWindow : List ProgressRecord := []
  modelReservations : List (String × ModelReservation) := []
  childReservations : List (String × ChildReservation) := []
  agentMessages : List Json := []
  agentState : Dict := []
  continuationArtifactId : Option String := none

structure Journal where
  state : State := {}
  calls : List CallRow := []
  events : List RunEvent := []
  evidence : List Evidence := []

namespace Journal

def call (j : Journal) (id : String) : Option CallRow := lookup CallRow.callId id j.calls

/-- `SELECT … FROM calls ORDER BY position` -/
def inOrder (j : Journal) : List CallRow := j.calls.insertionSort fun r r' => r.position ≤ r'.position

/-- `UPDATE calls SET … WHERE call_id=?` -/
def updCall (id : String) (f : CallRow → CallRow) (j : Journal) : Journal :=
  { j with calls := updateWhere (fun r => r.callId = id) f j.calls }

/-- `SELECT COALESCE(MAX(position),-1)+1 FROM calls` -/
def nextPosition (j : Journal) : ℕ := (j.calls.map fun r => r.position + 1).foldl max 0

/-- `INSERT INTO calls` -/
def insertCall (r : CallRow) (j : Journal) : Except Err Journal :=
  if ∃ r' ∈ j.calls, r'.callId = r.callId ∨ r'.position = r.position then .error .integrityError
  else .ok { j with calls := j.calls ++ [r] }

end Journal

/-! ### The machine -/

/-- What the engine reads of its process. -/
structure Host where
  sessionId : String
  workspace : String
  /-- `self.budget` -/
  budget : Budget
  /-- `_json` -/
  encode : Json → String
  sha : String → String

def fingerprint (host : Host) (tool : String) (arguments : Dict) (revision : String) : String :=
  host.sha (host.encode (.arr [.str tool, .obj arguments, .str revision]))

/-- What an executor does with a call. -/
inductive Outcome
  | returned (r : ToolResult)
  /-- it returns something else than a `ToolResult` -/
  | other
  | raised (kind message : String)
  | interrupted

/-- A process of the supervisor, as a poll shows it. -/
structure Process where
  id : String
  done : Bool
  oneShot : Bool
  status : String

/-- What the validators of the output contract and of the research find. -/
structure Review where
  contractErrors : List String
  artifactVerified : Bool
  researchErrors : List String

/-- What the engine asks of its machine. -/
inductive Ask
  /-- `time.time()` -/
  | clock
  /-- `uuid.uuid4().hex` -/
  | uuid
  /-- `workspace_revision` -/
  | revision
  /-- `artifact_store.put_json` -/
  | store (value : Dict)
  | processes
  | review (answer : String)
  /-- the executor that is given, or the broker -/
  | execute (call : ToolCall) (given : Bool)

def Answer : Ask → Type
  | .clock => Time
  | .uuid => String
  | .revision => String
  | .store _ => Except Err String
  | .processes => List Process
  | .review _ => Review
  | .execute _ _ => Outcome

abbrev Engine (α : Type) : Type := Script Journal Err Answer α

end Smara.Harness.Schema
