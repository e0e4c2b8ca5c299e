import Mathlib.Data.List.Infix
import Smara.Lib.Machine
import Smara.Lib.Table

/-! # The limits of research

`ResearchGuard` admits the requests of a tree of workers to the provider. A turn of a thread has a window,
and the turns under one root have a group; both count the calls of research tools that the inputs of the
requests show, and the requests since research has started. When a limit is reached, one more request of
the window is admitted, without its tools.

* `Request`: what the guard reads of a request.
* `charge`: the calls of a request are counted, each once for its window.
* `admitRequest`: the verdict on a request, with the counts after it.
* `applied`: what the verdict does to the payload. -/

namespace Smara.Provider.Limits

open Lib.Machine Lib.Table

/-! ### Requests -/

/-- An item of the input. -/
structure Item where
  role : String := ""
  /-- `json.dumps` of the content -/
  content : String := ""
  type : String := ""
  name : String := ""
  callId : String := ""
  arguments : String := "\x7b\x7d"
  deriving DecidableEq

structure Request where
  threadId : Option String := none
  /-- the header `thread-id` -/
  headerThreadId : Option String := none
  turnId : Option String := none
  rootTurnId : Option String := none
  parentTurnId : Option String := none
  input : List Item

/-- The digests that the guard takes. -/
structure Host where
  /-- of the first item of a turn -/
  turnDigest : List Item → String
  /-- of the name and the arguments of a call -/
  fingerprint : Item → String

/-- A window is one of a turn of a thread. -/
structure Key where
  thread : String
  turn : String
  deriving DecidableEq

inductive GroupKey
  | turn (id : String)
  | window (key : Key)
  deriving DecidableEq

/-- `value or default` -/
def orElse (value : Option String) (default : String) : String := (value.filter (· ≠ "")).getD default

def researchTools : List String :=
  ["web_search", "academic_search", "fetch_url", "source_page", "document_ocr", "image_analyze"]

/-- The last part of a name that is split at `__`. -/
def lastPart : List Char → List Char → List Char
  | part, [] => part
  | _, '_' :: '_' :: cs => lastPart [] cs
  | part, c :: cs => lastPart (part ++ [c]) cs

def ResearchTool (name : String) : Prop := String.ofList (lastPart [] name.toList) ∈ researchTools

instance (name : String) : Decidable (ResearchTool name) := inferInstanceAs (Decidable (_ ∈ _))

def Item.Starts (item : Item) : Prop :=
  item.role = "user" ∧ ¬ "<subagent_notification>".toList <:+: item.content.toList

instance (item : Item) : Decidable item.Starts := inferInstanceAs (Decidable (_ ∧ _))

def lastTurn : List Item → Option (List Item)
  | [] => none
  | item :: items =>
    match lastTurn items with
    | some turn => some turn
    | none => if item.Starts then some (item :: items) else none

/-- `inputs[start:]` -/
def Request.items (r : Request) : List Item := (lastTurn r.input).getD r.input

def Request.thread (r : Request) : String := orElse r.threadId (orElse r.headerThreadId "anonymous")

def Request.turn (host : Host) (r : Request) : String :=
  orElse r.turnId (host.turnDigest (r.items.take 1))

def Request.key (host : Host) (r : Request) : Key := ⟨r.thread, r.turn host⟩

def Request.group (host : Host) (r : Request) : GroupKey :=
  match r.rootTurnId.filter (· ≠ "") with
  | some root => .turn root
  | none =>
    match r.parentTurnId.filter (· ≠ "") with
    | some parent => .turn parent
    | none => if (r.turnId.filter (· ≠ "")).isSome then .turn (r.turn host) else .window (r.key host)

def Request.researchCalls (r : Request) : List Item :=
  r.items.filter fun item => item.type = "function_call" ∧ ResearchTool item.name

/-! ### The state -/

/-- The counts of a window, or of a group; `κ` are the names of its calls. -/
structure Window (κ : Type) where
  started : ℤ
  calls : List κ := []
  repeats : List (String × ℕ) := []
  requests : ℕ := 0
  research : Bool := false
  synthesis : Bool := false
  deriving DecidableEq

structure State where
  windows : List (Key × Window String) := []
  groups : List (GroupKey × Window (String × String)) := []

/-- The limits, which allow something. -/
structure Limits where
  workerCalls : ℕ := 64
  sharedCalls : ℕ := 240
  workerSeconds : ℤ := 240
  sharedSeconds : ℤ := 600
  workerRequests : ℕ := 80
  sharedRequests : ℕ := 300
  repeatLimit : ℕ := 3
  positive : 0 < workerCalls ∧ 0 < sharedCalls ∧ 0 < workerRequests ∧ 0 < sharedRequests ∧ 0 < repeatLimit := by
    decide

/-- The window with a key, if there is one. -/
def find {κ ω : Type} [DecidableEq κ] (k : κ) (t : List (κ × ω)) : Option ω := (lookup Prod.fst k t).map Prod.snd

/-- `windows[key] = window` -/
def store {κ ω : Type} [DecidableEq κ] (k : κ) (w : ω) (t : List (κ × ω)) : List (κ × ω) :=
  upsert Prod.fst (k, w) (fun _ => (k, w)) t

/-- `_window`: the table with a window for the key, which is new if there is none, and the window; there
is no room for more than 256. -/
def window {κ α : Type} [DecidableEq κ] (k : κ) (now : ℤ) (t : List (κ × Window α)) :
    Option (List (κ × Window α) × Window α) :=
  match find k t with
  | some w => some (t, w)
  | none => if 256 ≤ t.length then none else some (store k { started := now } t, { started := now })

/-! ### Counting -/

/-- `repeats[fingerprint] = repeats.get(fingerprint, 0) + 1` -/
def bump (fingerprint : String) (repeats : List (String × ℕ)) : List (String × ℕ) :=
  store fingerprint ((find fingerprint repeats).getD 0 + 1) repeats

/-- `set.add` -/
def insertNew {α : Type} [DecidableEq α] (a : α) (as : List α) : List α := if a ∈ as then as else as ++ [a]

abbrev Counts := Window String × Window (String × String)

/-- The body of the loop of `admit`: a call is counted, unless the window has it. -/
def count (host : Host) (thread : String) (c : Counts) (item : Item) : Counts :=
  if item.callId ∈ c.1.calls then c
  else
    ({ c.1 with
        research := true, calls := insertNew item.callId c.1.calls
        repeats := bump (host.fingerprint item) c.1.repeats },
      { c.2 with research := true, calls := insertNew (thread, item.callId) c.2.calls })

def charge (host : Host) (r : Request) (c : Counts) : Counts := r.researchCalls.foldl (count host r.thread) c

def Window.request {κ : Type} (w : Window κ) : Window κ := { w with requests := w.requests + 1 }

/-! ### Verdicts -/

inductive Verdict
  /-- `None`: the request is admitted with its tools -/
  | intact
  /-- the request is admitted without tools, for the reason -/
  | synthesis (reason : String)
  /-- `ResearchLimitError` -/
  | refused (message : String)
  deriving DecidableEq

def most (repeats : List (String × ℕ)) : ℕ := (repeats.map Prod.snd).foldl max 0

def reason (limits : Limits) (now : ℤ) (c : Counts) : Option String :=
  if limits.repeatLimit ≤ most c.1.repeats then
    some "Repeated identical research calls produced no new retrieval opportunity"
  else if limits.workerCalls ≤ c.1.calls.length ∨ limits.sharedCalls ≤ c.2.calls.length then
    some "Research tool-call budget reached"
  else if limits.workerSeconds ≤ now - c.1.started ∨ limits.sharedSeconds ≤ now - c.2.started then
    some "Research time budget reached"
  else if limits.workerRequests ≤ c.1.requests ∨ limits.sharedRequests ≤ c.2.requests then
    some "Research inference-request budget reached"
  else none

/-- What `admit` decides once research has started, with the window after it. -/
def decided (limits : Limits) (now : ℤ) (c : Counts) : Verdict × Window String :=
  match reason limits now c with
  | none =>
    if c.1.synthesis then
      (.refused "Research limit reached; the bounded synthesis request was already used. No further provider request was sent.",
        c.1)
    else (.intact, c.1)
  | some why =>
    if c.1.synthesis then
      (.refused "Research limit reached; the bounded synthesis request was already used. No further provider request was sent.",
        c.1)
    else (.synthesis why, { c.1 with synthesis := true })

def full : Verdict :=
  .refused "Research admission state is full; reconnect before starting another turn."

/-- A request with the time at which it is admitted. -/
structure Call where
  request : Request
  now : ℤ

def admitRequest (limits : Limits) (host : Host) (s : State) (c : Call) : Verdict × State :=
  let key := c.request.key host
  let groupKey := c.request.group host
  if c.request.researchCalls = [] ∧ find groupKey s.groups = none then (.intact, s)
  else
    match window key c.now s.windows with
    | none => (full, s)
    | some (windows, w) =>
      match window groupKey c.now s.groups with
      | none => (full, { s with windows := windows })
      | some (groups, g) =>
        let (w, g) := charge host c.request (w, g)
        if w.research = false ∧ g.research = false then
          (.intact, { windows := store key w windows, groups := store groupKey g groups })
        else
          let (verdict, w) := decided limits c.now (w.request, g.request)
          (verdict, { windows := store key w windows, groups := store groupKey g.request groups })

def step (limits : Limits) (host : Host) (s : State) (c : Call) : State := (admitRequest limits host s c).2

/-! ### Payloads -/

/-- What a request sends to the provider, and the tools that its answer may name. -/
structure Payload where
  tools : Option String
  toolChoice : Option String
  messages : List (String × String)
  mapping : List (String × String)
  deriving DecidableEq

/-- What the verdict does to the payload, which is sent unless the request is refused. -/
def applied (p : Payload) : Verdict → Option Payload
  | .intact => some p
  | .synthesis why => some {
      tools := none, toolChoice := none, mapping := []
      messages := p.messages ++ [("system", why ++ ". Tools are now unavailable for this turn. Return your best partial answer or worker handoff from evidence already gathered. Explicitly state the research limit and unresolved gaps; distinguish fetched evidence from discovery snippets. Do not invent sources, imply the task fully succeeded, or ask to run another tool. If a worker report is missing, say it is missing.")] }
  | .refused _ => none

end Smara.Provider.Limits
