import Mathlib.Algebra.Order.Group.Int
import Smara.TaskStore.Calls
import Smara.Lib.PyText

/-! # The conversation memory and its queue

A completed turn is captured as a row of the table `writes`. Workers take rows under a lease of 30 seconds, call the
hosted memory, and record what came of it if the lease is still theirs.

* `Host`: what the code is run on, with a digest that is taken to be injective.
* `capture`, `pump`: the two operations; a pump is cut where it leaves the database, see `Event`.
* `settle`: what a worker makes of a reply. -/

namespace Smara.Native.Memory

open Lib.Lawful Lib.Table
open TaskStore.Calls (strip)

/-! ### The host -/

/-- A memory as it is uploaded. -/
structure Payload where
  userId : String
  agentId : Option String
  runId : String
  user : String
  assistant : String
  threadId : String
  turnId : String
  deriving DecidableEq

/-- The platform, the texts of the code, and the digests of lists of strings, of type `η`. -/
structure Host (η : Type) where
  nt : Bool
  protect : String → String
  unprotect : String → String
  unprotect_protect : ∀ s, unprotect (protect s) = s
  redact : String → List String → String
  dumps : Payload → String
  /-- `_dataset`: the digest of user, agent and key. -/
  dataset : String → Option String → String → η
  dataset_injective : ∀ {u a k u' a' k'}, dataset u a k = dataset u' a' k' → u = u' ∧ a = a' ∧ k = k'
  /-- The digest of dataset, thread and turn. -/
  identity : η → String → String → η
  identity_injective : ∀ {d t u d' t' u'}, identity d t u = identity d' t' u' → d = d' ∧ t = t' ∧ u = u'
  /-- The agent of the workspace. -/
  projectAgent : String

inductive Scope
  | project
  | personal
  deriving DecidableEq

structure Settings where
  enabled : Bool
  userId : String
  scope : Scope
  deriving DecidableEq

/-- `_binding`, what the settings and the stored key give. -/
structure Binding (η : Type) where
  userId : String
  key : String
  dataset : η
  agent : Option String

section Binding
variable {η : Type} (host : Host η)

def binding (s : Settings) (key : Option String) : Option (Binding η) :=
  match key with
  | none => none
  | some key =>
    if s.enabled = false ∨ s.userId = "" ∨ key = "" then none
    else
      let agent := if s.scope = .project then some host.projectAgent else none
      some ⟨s.userId, key, host.dataset s.userId agent key, agent⟩

end Binding

/-! ### The table -/

abbrev Time := ℤ

inductive State
  | pending
  | submitted
  | succeeded
  | failed
  deriving DecidableEq

def State.isOpen : State → Bool
  | .pending => true
  | .submitted => true
  | _ => false

structure Row (η : Type) where
  id : η
  dataset : η
  payload : String
  state : State
  eventId : Option String := none
  attempts : ℕ := 0
  nextAt : Time
  lease : Option ℕ := none
  leaseUntil : Time := 0
  updated : Time
  detail : String := ""
  submittedAt : Option Time := none
  deriving DecidableEq

def stored {η : Type} (host : Host η) (payload : String) : String :=
  if host.nt then "dpapi:" ++ host.protect payload else "json:" ++ payload

def opened {η : Type} (host : Host η) (text : String) : String :=
  if "dpapi:".toList <+: text.toList then host.unprotect (String.ofList (text.toList.drop 6))
  else String.ofList (text.toList.drop 5)

/-! ### Capture -/

/-- What `augment` has returned for a turn. -/
structure Ticket (η : Type) where
  thread : String
  turn : String
  user : String
  dataset : η
  agent : Option String
  userId : String
  key : String

structure Part where
  type : String
  text : String

structure Item where
  type : String
  content : List Part

structure Response where
  status : String
  output : List Item

def Response.text (r : Response) : String :=
  "\n".intercalate ((r.output.flatMap Item.content).filterMap fun p => if p.type = "output_text" then some p.text else none)

def maxCaptureBytes : ℕ := 1000000

section Operations
variable {η : Type} [DecidableEq η] (host : Host η)

/-- The payload of a turn, if it is to be captured. -/
def captured (b : Option (Binding η)) (cancelled : List (String × String)) (ticket : Option (Ticket η))
    (response : Response) (providerSecret : String) : Option (Ticket η × String) :=
  match ticket, b with
  | some t, some b =>
    if response.status ≠ "completed" ∨ (∃ item ∈ response.output, item.type ≠ "message") then none
    else if (t.thread, t.turn) ∈ cancelled then none
    else if strip response.text = "" then none
    else if b.dataset ≠ t.dataset then none
    else if maxCaptureBytes < t.user.utf8ByteSize + response.text.utf8ByteSize then none
    else
      let payload := host.dumps {
        userId := t.userId, agentId := t.agent, runId := t.turn
        user := host.redact t.user [t.key, providerSecret]
        assistant := host.redact response.text [t.key, providerSecret]
        threadId := t.thread, turnId := t.turn }
      if maxCaptureBytes < payload.utf8ByteSize then none else some (t, payload)
  | _, _ => none

/-- `INSERT OR IGNORE INTO writes` -/
def insertWrite (id dataset : η) (text : String) (time : Time) (writes : List (Row η)) : List (Row η) :=
  if ∃ r ∈ writes, r.id = id then writes
  else writes ++ [{ id, dataset, payload := text, state := .pending, nextAt := time, updated := time }]

/-! ### Pump -/

def nextRow (dataset : η) (now : Time) (writes : List (Row η)) : Option (Row η) :=
  firstBy (fun r r' => r.updated < r'.updated)
    (writes.filter fun r => r.dataset = dataset ∧ r.state.isOpen ∧ r.nextAt ≤ now ∧ r.leaseUntil ≤ now)

/-- `UPDATE writes SET lease=?, lease_until=? WHERE id=?` -/
def leaseRow (id : η) (lease : ℕ) (now : Time) : List (Row η) → List (Row η) :=
  updateWhere (fun r => r.id = id) fun r => { r with lease := some lease, leaseUntil := now + 30 }

/-- What the hosted memory has answered: the fields of a result, or an exception. -/
inductive Reply
  | raised
  | result (eventId status : Option String)
  deriving DecidableEq

/-- What a worker writes back. -/
structure Outcome where
  state : State
  eventId : Option String
  attempts : ℕ
  detail : String
  submittedAt : Option Time
  deriving DecidableEq

/-- The values that a worker has read. -/
def Row.outcome (row : Row η) : Outcome where
  state := row.state
  eventId := row.eventId
  attempts := row.attempts
  detail := ""
  submittedAt := if row.state = .submitted ∧ row.submittedAt = none then some row.updated else row.submittedAt

/-- The `except` branch. -/
def Outcome.unavailable (o : Outcome) : Outcome :=
  { o with
    attempts := o.attempts + 1
    state := if 3 ≤ o.attempts + 1 then .failed else o.state
    detail := if o.attempts + 1 < 3 then "Memory service unavailable; bounded retry pending"
      else "Memory sync failed after three attempts; native history is intact" }

/-- `[A-Za-z0-9_-]{1,128}` -/
def validEvent (event : String) : Bool :=
  1 ≤ event.length ∧ event.length ≤ 128 ∧ event.toList.all fun c => c.isAlphanum || c = '_' || c = '-'

/-- A worker that has taken `row` at the time `now` goes on after the reply; `closed` says that the client could be
closed. -/
def settle (row : Row η) (now : Time) (reply : Reply) (closed : Bool) : Outcome :=
  let o := row.outcome
  match reply with
  | .raised => o.unavailable
  | .result eventId status =>
    if row.state = .pending then
      let o := { o with eventId }
      if eventId.any validEvent then
        let o := { o with
          state := .submitted, detail := "Memory accepted; ingestion pending", submittedAt := some now }
        if closed then o else o.unavailable
      else o.unavailable
    else
      let o :=
        if status = some "succeeded" then { o with state := .succeeded, detail := "Memory ingestion succeeded" }
        else if status ∈ [some "failed", some "dead_letter", some "cancelled"] then
          { o with state := .failed, detail := "Memory ingestion failed; native history is intact" }
        else if ∃ submittedAt ∈ o.submittedAt, 86400 < now - submittedAt then
          { o with state := .failed, detail := "Memory ingestion did not finish within one day" }
        else { o with detail := "Memory accepted; ingestion pending" }
      if closed then o else o.unavailable

/-- The last statement of a pump: the row is written if the lease is the worker's. -/
def recordRow (id : η) (lease : ℕ) (now : Time) (o : Outcome) : List (Row η) → List (Row η) :=
  updateWhere (fun r => r.id = id ∧ r.lease = some lease) fun r => { r with
    state := o.state
    eventId := o.eventId
    attempts := o.attempts
    detail := o.detail
    nextAt := now + max 10 (10 * o.attempts)
    submittedAt := o.submittedAt
    lease := none
    leaseUntil := 0
    payload := if o.state.isOpen then r.payload else "" }

variable {id id' : η} {lease : ℕ} {now : Time} {o : Outcome} {writes : List (Row η)}

theorem map_id_leaseRow : (leaseRow id lease now writes).map Row.id = writes.map Row.id := by
  unfold leaseRow
  exact map_updateWhere fun _ _ => rfl

theorem map_id_recordRow : (recordRow id lease now o writes).map Row.id = writes.map Row.id := by
  unfold recordRow
  exact map_updateWhere fun _ _ => rfl

end Operations

end Smara.Native.Memory
