import Mathlib.Data.List.Infix
import Smara.Lib.Machine
import Smara.TaskStore.Schema

/-! # Reviewed emails

A record of the outreach store is a draft of one email, and what has become of it. A user sends it under the
digest of the content that was reviewed. Between the transaction that claims the record and the one that
settles it lies the request to Gmail, which may take any time, and which a crash may cut off.

* `Record`, `RecordState`: the table.
* `create`, `readEdit`, `commitEdit`, `suppress`, `claim`, `settle`, `verify`, `recover`: the transactions.
* `Op`, `step`: the calls, and what is left of them, in any order. -/

namespace Smara.Outreach.Schema

open Lib.Table
open TaskStore.Schema (Time seconds)

/-! ### Drafts -/

/-- A quote from a page, and what it is evidence of. -/
structure Evidence where
  url : String
  sourceId : String
  claim : String
  quote : String
  deriving DecidableEq

structure Draft where
  company : String
  companyDomain : String
  /-- `to` -/
  recipient : String
  subject : String
  text : String
  evidence : List Evidence
  messageIdHeader : String
  deriving DecidableEq

inductive RecordState
  | draft | sending | unknown | accepted | failed | sentVerified | suppressed
  deriving DecidableEq

/-- A row of the table `outreach`. -/
structure Record where
  id : String
  workspace : String
  recipientHash : String
  payload : Draft
  contentHash : String
  state : RecordState
  created : Time
  attempted : Option Time := none
  messageId : Option String := none
  threadId : Option String := none
  senderHash : Option String := none
  detail : String := ""
  deriving DecidableEq

/-- The request of a draft, with the evidence as it was given. -/
structure Proposal where
  company : String
  companyDomain : String
  /-- `to` -/
  recipient : String
  subject : String
  text : String
  /-- `source_id`, `quote` and `claim` of each entry -/
  evidence : List (String × String × String)

/-- A page that was fetched in the session. -/
structure Page where
  finalUrl : String
  text : String

/-- The host of a public web page, if the URL is of one. -/
abbrev HostOf := String → Option String

/-- What is computed outside of the store. -/
structure Host where
  /-- `sha256` of the content of a draft -/
  digest : Draft → String
  /-- `sha256` of an address -/
  hash : String → String
  /-- one explicit address, in lower case -/
  address : String → Option String
  /-- the form of a public domain -/
  isDomain : String → Bool
  hostOf : HostOf
  /-- the text with its white space collapsed -/
  squeeze : String → String
  /-- the form of a reference to a message -/
  isReference : String → Bool
  /-- the daily cap of a sender -/
  dailyLimit : ℕ

variable (host : Host)

/-- `a in b` -/
def inside (a b : String) : Prop := a.toList <:+: b.toList

instance (a b : String) : Decidable (inside a b) := inferInstanceAs (Decidable (_ <:+: _))

def blank (s : String) : Prop := ∀ c ∈ s.toList, c.isWhitespace

instance (s : String) : Decidable (blank s) := List.decidableBAll _ s.toList

/-- An entry of the evidence as it is kept, and whether it shows the address on the company's own pages. -/
def checkEntry (sources : String → Option Page) (domain recipient : String) (entry : String × String × String) :
    Except String (Evidence × Bool) :=
  let (sourceId, quote, claim) := entry
  match sources sourceId with
  | none => .error "Evidence must quote a page actually fetched in this reader session"
  | some page =>
    if quote.length < 20 ∨ 4000 < quote.length ∨ claim.length < 1 ∨ 2000 < claim.length ∨
        ¬ inside (host.squeeze quote) (host.squeeze page.text) then
      .error "Evidence must quote a page actually fetched in this reader session"
    else
      match host.hostOf page.finalUrl with
      | none => .error "Outreach evidence requires public web pages, not private files"
      | some name =>
        let own := name = domain ∨ name.endsWith ("." ++ domain)
        .ok (⟨page.finalUrl, sourceId, claim, quote⟩, own ∧ inside recipient quote.toLower)

/-- The fields that `create` bounds, with their limits. -/
def Proposal.fields (p : Proposal) : List (String × ℕ) :=
  [(p.company, 200), (p.companyDomain, 253), (p.subject, 200), (p.text, 8000)]

/-- The content of a new record, if the checks of `create` are met. -/
def payload (sources : String → Option Page) (p : Proposal) (identity : String) : Except String Draft := do
  let some recipient := host.address p.recipient
    | throw "Provide one explicit email address, without display name or extra recipients"
  if ∃ f ∈ p.fields, blank f.1 ∨ f.2 < f.1.length then
    throw "Draft text is missing or exceeds its field limit"
  if '\n' ∈ p.subject.toList ∨ '\r' ∈ p.subject.toList then
    throw "Email subjects cannot contain newlines"
  let domain := p.companyDomain.toLower
  if ¬ host.isDomain domain then
    throw "Provide the company's public website domain"
  if p.evidence.length < 1 ∨ 20 < p.evidence.length then
    throw "Research-backed drafts need observed source evidence"
  let checked ← p.evidence.mapM (checkEntry host sources domain recipient)
  if ¬ ∃ e ∈ checked, e.2 then
    throw ("The recipient must appear in an observed contact excerpt on the company's own website; " ++
      "do not guess addresses")
  return {
    company := p.company, companyDomain := domain, recipient, subject := p.subject, text := p.text
    evidence := checked.map Prod.fst
    messageIdHeader := "<smara-" ++ identity ++ "@smara.local>" }

/-! ### The table -/

abbrev Records := List Record

/-- `get`: the record, if its content has the digest that is kept with it. -/
def get (id workspace : String) (rows : Records) : Except String Record :=
  match rows.find? fun r => r.id = id ∧ r.workspace = workspace with
  | none => .error "Draft not found in this project"
  | some r =>
    if host.digest r.payload ≠ r.contentHash then .error "Draft content changed; create and review a new draft"
    else .ok r

/-- The new record of `create`. -/
def fresh (workspace identity : String) (d : Draft) (now : Time) : Record := {
  id := identity, workspace, recipientHash := host.hash d.recipient, payload := d
  contentHash := host.digest d, state := .draft, created := now }

/-- **`create`**: a project has one record for a recipient. -/
def create (workspace : String) (sources : String → Option Page) (enabled : Bool) (p : Proposal)
    (identity : String) (now : Time) (rows : Records) : Except String Records := do
  if ¬ enabled then
    throw "Enable local outreach drafts in Settings → Email first"
  let d ← payload host sources p identity
  match rows.find? fun r => r.workspace = workspace ∧ r.recipientHash = host.hash d.recipient with
  | some r =>
    let previous ← get host r.id workspace rows
    if { previous.payload with messageIdHeader := d.messageIdHeader } = d then return rows
    else throw ("This project already has a different draft or contact record for that recipient; " ++
      "review/edit it instead of creating a duplicate")
  | none =>
    if ∃ r ∈ rows, r.id = identity then throw "UNIQUE constraint failed: outreach.id"
    else return rows ++ [fresh host workspace identity d now]

/-- `edit`, up to its transaction: the content that is to replace the one that was reviewed. -/
def readEdit (id workspace contentHash subject text : String) (rows : Records) : Except String Draft := do
  let r ← get host id workspace rows
  if r.state ≠ .draft ∨ r.contentHash ≠ contentHash then
    throw "Only an unattempted draft of the reviewed revision can be edited"
  if blank subject ∨ 200 < subject.length ∨ '\n' ∈ subject.toList ∨ '\r' ∈ subject.toList ∨
      blank text ∨ 8000 < text.length then
    throw "Provide a single-line subject and non-empty body within the draft limits"
  return { r.payload with subject, text }

/-- **The transaction of `edit`** -/
def commitEdit (id contentHash : String) (d : Draft) (rows : Records) : Records :=
  let edited (r : Record) : Record := { r with payload := d, contentHash := host.digest d }
  updateWhere (fun r => r.id = id ∧ r.state = .draft ∧ r.contentHash = contentHash) edited rows

/-- `suppress`, up to its transaction -/
def readSuppress (id workspace : String) (rows : Records) : Except String Unit := do
  let r ← get host id workspace rows
  if r.state = .sending ∨ r.state = .unknown then
    throw "Reconcile the uncertain dispatch before changing its record"

def Suppressible (id : String) (r : Record) : Prop := r.id = id ∧ r.state ≠ .sending ∧ r.state ≠ .unknown

instance (id : String) : DecidablePred (Suppressible id) := fun _ => inferInstanceAs (Decidable (_ ∧ _))

/-- **The transaction of `suppress`** -/
def suppress (id : String) (rows : Records) : Records :=
  updateWhere (Suppressible id) (fun r => { r with state := .suppressed, detail := "Do not contact" }) rows

/-- The settings that a call reads. -/
structure Options where
  enabled : Bool
  allowlist : List String

/-- `send`, up to its transaction: the content that was reviewed. -/
def readSend (id workspace contentHash : String) (options : Options) (rows : Records) : Except String Draft := do
  let r ← get host id workspace rows
  if r.contentHash ≠ contentHash then
    throw "Review the exact current recipient and content before sending"
  if ¬ options.enabled ∨ r.payload.recipient ∉ options.allowlist then
    throw "Add this exact recipient to the approved cohort in Settings → Email"
  return r.payload

def day : Time := seconds 86400

def attempts (senderHash : String) (now : Time) (rows : Records) : ℕ :=
  rows.countP fun r => r.senderHash = some senderHash ∧ ∃ a ∈ r.attempted, now - day ≤ a

def Reviewed (id contentHash : String) (r : Record) : Prop :=
  r.id = id ∧ r.state = .draft ∧ r.contentHash = contentHash

instance (id contentHash : String) : DecidablePred (Reviewed id contentHash) :=
  fun _ => inferInstanceAs (Decidable (_ ∧ _))

/-- **The transaction of `send`**, which reads the clock twice. -/
def claim (id contentHash senderHash : String) (now later : Time) (rows : Records) : Except String Records :=
  if host.dailyLimit ≤ attempts senderHash now rows then .error "Approved daily email allowance reached"
  else if ∃ r ∈ rows, Reviewed id contentHash r then
    let sending (r : Record) : Record :=
      { r with state := .sending, attempted := some later, senderHash := some senderHash }
    .ok (updateWhere (Reviewed id contentHash) sending rows)
  else .error "This draft has already been attempted or suppressed; it will not be resent"

/-- What has come of a dispatch. -/
structure Outcome where
  state : RecordState
  detail : String
  messageId : Option String := none
  threadId : Option String := none

/-- The outcome before anything is known of it. -/
def uncertain : Outcome := { state := .unknown, detail := "Dispatch outcome uncertain; reconcile, do not resend" }

/-- The answer of Gmail to a dispatch. -/
inductive Response
  /-- 200, with the references that it names -/
  | ok (messageId threadId : Option String)
  /-- 200, without an object -/
  | malformed
  | status (code : ℕ)
  /-- the transport has failed -/
  | lost

/-- The outcome that `send` reads from the answer. -/
def Response.outcome : Response → Outcome
  | .ok messageId threadId =>
    let threadId := threadId.filter host.isReference
    if ∃ m ∈ messageId, host.isReference m then
      { state := .accepted, detail := "Gmail accepted this message; recipient delivery is not verified"
        messageId, threadId }
    else { uncertain with messageId, threadId }
  | .status code =>
    if 400 ≤ code ∧ code < 500 then
      { state := .failed, detail := "Gmail rejected this dispatch; no automatic retry" }
    else uncertain
  | .malformed | .lost => uncertain

/-- **The last transaction of `send`** -/
def settle (id : String) (o : Outcome) (rows : Records) : Records :=
  let settled (r : Record) : Record :=
    { r with state := o.state, detail := o.detail, messageId := o.messageId, threadId := o.threadId }
  updateWhere (fun r => r.id = id ∧ r.state = .sending) settled rows

def Uncertain (r : Record) : Prop :=
  r.state = .unknown ∨ r.state = .accepted ∨ r.state = .sentVerified

instance : DecidablePred Uncertain := fun _ => inferInstanceAs (Decidable (_ ∨ _))

/-- `reconcile`, up to its request -/
def readReconcile (id workspace sender : String) (rows : Records) : Except String Draft := do
  let r ← get host id workspace rows
  if ¬ Uncertain r then
    throw "Only accepted or uncertain dispatches can be reconciled"
  if r.senderHash ≠ some (host.hash sender) then
    throw "Reconnect the original sending account before reconciliation"
  return r.payload

/-- **The transaction of `reconcile`** -/
def verify (id messageId : String) (threadId : Option String) (rows : Records) : Records :=
  let verified (r : Record) : Record :=
    { r with
      state := .sentVerified
      messageId := some messageId
      threadId
      detail := "Verified in Gmail Sent; recipient delivery/reply is not established" }
  updateWhere (fun r => r.id = id ∧ Uncertain r) verified rows

/-- **The opening of the store**: a dispatch that has taken more than two minutes is taken to be interrupted. -/
def recover (now : Time) (rows : Records) : Records :=
  let interrupted (r : Record) : Record :=
    { r with state := .unknown, detail := "Dispatch interrupted; reconcile before any further action" }
  updateWhere (fun r => r.state = .sending ∧ ∃ a ∈ r.attempted, a < now - seconds 120) interrupted rows

/-! ### Calls -/

/-- An email as it was given to Gmail. -/
structure Mail where
  /-- the record that it was sent for -/
  id : String
  sender : String
  draft : Draft
  /-- the digest that the user has passed to `send` -/
  contentHash : String

/-- What has happened outside of the table. -/
inductive Event
  /-- `POST /messages/send` -/
  | post (m : Mail)
  | suppress (id : String)

/-- What is left to do of a call. -/
inductive Job
  | edit (id contentHash : String) (d : Draft)
  | suppress (id : String)
  /-- the transaction of `send` -/
  | claim (id contentHash : String) (d : Draft) (sender : String)
  /-- the record is claimed, and the email is to be sent -/
  | dispatch (m : Mail)
  /-- the last transaction of `send` -/
  | settle (id : String) (o : Outcome)
  /-- Gmail is asked for the email -/
  | readBack (id : String) (d : Draft) (sender : String)

structure State where
  now : Time := 0
  rows : Records := []
  jobs : List Job := []
  log : List Event := []

/-- The emails that were given to Gmail. -/
def Event.mail? : Event → Option Mail
  | .post m => some m
  | .suppress _ => none

def State.mailbox (s : State) : List Mail := s.log.filterMap Event.mail?

/-- What the world answers to a job. -/
inductive Answer
  /-- of a transaction; the time that it takes -/
  | commits (elapsed : ℕ)
  /-- the token is refused before anything is sent -/
  | refused
  | sent (r : Response)
  /-- the email of the mailbox that Gmail finds, with its references -/
  | found (mail : ℕ) (messageId : String) (threadId : Option String)

/-- A call, what is left of one, or the passing of time. -/
inductive Op
  | pass (elapsed : ℕ)
  | recover
  | create (workspace : String) (sources : String → Option Page) (enabled : Bool) (p : Proposal) (identity : String)
  | edit (id workspace contentHash subject text : String)
  | suppress (id workspace : String)
  | send (id workspace contentHash : String) (options : Options) (sender : String)
  | reconcile (id workspace sender : String)
  | goOn (job : ℕ) (a : Answer)
  /-- the process of a job is gone -/
  | crash (job : ℕ)

def State.pass (elapsed : ℕ) (s : State) : State := { s with now := s.now + elapsed }

def State.withJob (j : Except String Job) (s : State) : State :=
  match j with
  | .error _ => s
  | .ok j => { s with jobs := s.jobs ++ [j] }

def Matches (d : Draft) (sender : String) (m : Mail) : Prop :=
  m.draft.messageIdHeader = d.messageIdHeader ∧ m.draft.recipient = d.recipient ∧ m.sender = sender

instance (d : Draft) (sender : String) : DecidablePred (Matches d sender) :=
  fun _ => inferInstanceAs (Decidable (_ ∧ _))

/-- The job goes on, in a state that does not have it any more. -/
def goOn (a : Answer) (s : State) : Job → State
  | .edit id contentHash d => { s with rows := commitEdit host id contentHash d s.rows }
  | .suppress id =>
    { s with
      rows := suppress id s.rows
      log := if ∃ r ∈ s.rows, Suppressible id r then s.log ++ [.suppress id] else s.log }
  | .claim id contentHash d sender =>
    match a with
    | .commits elapsed =>
      let s' := s.pass elapsed
      match claim host id contentHash (host.hash sender) s.now s'.now s.rows with
      | .error _ => s'
      | .ok rows => { s' with rows, jobs := s.jobs ++ [.dispatch ⟨id, sender, d, contentHash⟩] }
    | _ => s
  | .dispatch m =>
    match a with
    | .sent r => { s with jobs := s.jobs ++ [.settle m.id (r.outcome host)], log := s.log ++ [.post m] }
    | _ => { s with jobs := s.jobs ++ [.settle m.id uncertain] }
  | .settle id o => { s with rows := settle id o s.rows }
  | .readBack id d sender =>
    match a with
    | .found mail messageId threadId =>
      if host.isReference messageId ∧ ∃ m ∈ s.mailbox[mail]?, Matches d sender m then
        { s with rows := verify id messageId threadId s.rows }
      else s
    | _ => s

def step (s : State) : Op → State
  | .pass elapsed => s.pass elapsed
  | .recover => { s with rows := recover s.now s.rows }
  | .create workspace sources enabled p identity =>
    match create host workspace sources enabled p identity s.now s.rows with
    | .error _ => s
    | .ok rows => { s with rows }
  | .edit id workspace contentHash subject text =>
    s.withJob ((readEdit host id workspace contentHash subject text s.rows).map fun d => .edit id contentHash d)
  | .suppress id workspace => s.withJob ((readSuppress host id workspace s.rows).map fun _ => .suppress id)
  | .send id workspace contentHash options sender =>
    s.withJob ((readSend host id workspace contentHash options s.rows).map fun d =>
      .claim id contentHash d sender)
  | .reconcile id workspace sender =>
    s.withJob ((readReconcile host id workspace sender s.rows).map fun d => .readBack id d sender)
  | .goOn job a =>
    match s.jobs[job]? with
    | none => s
    | some j => goOn host a { s with jobs := s.jobs.eraseIdx job } j
  | .crash job => { s with jobs := s.jobs.eraseIdx job }

end Smara.Outreach.Schema
