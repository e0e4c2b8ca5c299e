import Smara.Lib.Machine
import Smara.Server.Schema

/-! # The ledger of a shop

Each call that writes the ledger is a transaction, or a row of them with sends between. What a call still
has to do is a `Job`: the claim of a due invoice whose owner is to be asked, a reminder that is to be sent,
a reminder whose receipt says that it failed. Any other call may come before it is done.

* `importRows`, `claimDue`, `releaseClaim`, `decideReminder`, `decideAdjustment`, `transition`,
  `undoReminder`: the transactions.
* `Action`, `step`: the calls, and what is left of them, in any order. -/

namespace Smara.Server.Ledger

open Lib.Table Server.Schema
open TaskStore.Schema (Time seconds)

/-! ### Sheets -/

/-- A row of a sheet, with the ids that new rows of the database are given. -/
structure SheetRow where
  party : String
  phone : String
  invoiceRef : String
  amountPaise : ℤ
  dueDate : Day
  gstin : Option String := none
  partyId : Id
  obligationId : Id

/-- The insertion of a party: `ON CONFLICT (tenant_id, whatsapp_phone) DO UPDATE`, with the id. -/
def importParty (tenantId : Id) (r : SheetRow) (db : Db) : Option (Id × Db) :=
  match db.parties.find? fun p => p.tenantId = tenantId ∧ p.whatsappPhone = r.phone with
  | some p => some (p.id, { db with
      parties := updateWhere (fun q => q.id = p.id) (fun q => { q with gstin := r.gstin.or q.gstin }) db.parties })
  | none =>
    if (db.party r.partyId).isSome then none
    else some (r.partyId, { db with parties := db.parties ++ [{
      id := r.partyId, tenantId, canonicalName := r.party, whatsappPhone := r.phone, gstin := r.gstin }] })

/-- The insertion of an obligation: `ON CONFLICT (tenant_id, invoice_ref) DO UPDATE`, unless it is `PAID`.
The amount is checked, and the id is new. -/
def importObligation (tenantId partyId : Id) (now : Time) (r : SheetRow) (db : Db) : Option Db :=
  if r.amountPaise < 0 then none
  else
    match db.obligations.find? fun o => o.tenantId = tenantId ∧ o.invoiceRef = r.invoiceRef with
    | some o => some (db.updateObligation (fun p => p.id = o.id ∧ p.state ≠ .paid)
        fun p => { p with amountPaise := r.amountPaise, dueDate := r.dueDate })
    | none =>
      if (db.obligation r.obligationId).isSome then none
      else
        let o : Obligation := {
          id := r.obligationId, tenantId, partyId, invoiceRef := r.invoiceRef, amountPaise := r.amountPaise
          dueDate := r.dueDate, nextFollowupAt := some (max (midnight r.dueDate) now), state := .active }
        some (({ db with obligations := db.obligations ++ [o] }).event o.id none .active .owner none)

/-- The loop of `import_rows`. -/
def importAll (tenantId : Id) (now : Time) : List SheetRow → Db → Option Db
  | [], db => some db
  | r :: rows, db =>
    match importParty tenantId r db with
    | none => none
    | some (partyId, db) =>
      match importObligation tenantId partyId now r db with
      | none => none
      | some db => importAll tenantId now rows db

/-- **`import_rows`**: one transaction, which is undone if a row fails. -/
def importRows (tenantId : Id) (now : Time) (rows : List SheetRow) (db : Db) : Db :=
  (importAll tenantId now rows db).getD db

/-! ### Due invoices -/

def maxAttempts : ℤ := 4

def OptedOut (db : Db) (o : Obligation) : Prop := ∃ p ∈ db.parties, p.id = o.partyId ∧ p.optedOutAt.isSome

instance (db : Db) (o : Obligation) : Decidable (OptedOut db o) := inferInstanceAs (Decidable (∃ _ ∈ _, _))

/-- The obligation is due, and its party has not said stop. -/
def Due (now : Time) (db : Db) (o : Obligation) : Prop :=
  (o.state = .active ∨ o.state = .dispatched ∨ o.state = .snoozed) ∧
    (∃ at_ ∈ o.nextFollowupAt, at_ ≤ now) ∧ o.attemptCount < maxAttempts ∧
      ¬ OptedOut db o

instance (now : Time) (db : Db) (o : Obligation) : Decidable (Due now db o) :=
  inferInstanceAs (Decidable (_ ∧ _))

/-- `ORDER BY next_followup_at LIMIT … FOR UPDATE SKIP LOCKED` -/
def dueRows (now : Time) (limit : ℕ) (locked : List Id) (db : Db) : List Obligation :=
  ((db.obligations.filter fun o => Due now db o ∧ o.id ∉ locked).mergeSort
    fun o p => decide (o.nextFollowupAt.getD 0 ≤ p.nextFollowupAt.getD 0)).take limit

/-- What is left to do of a call. -/
inductive Job
  /-- the owner is asked about an obligation that was claimed -/
  | ask (o : Obligation)
  /-- the reminder is sent to the debtor -/
  | remind (o : Obligation)
  /-- the reminder was sent, and is to be remembered -/
  | remember (o : Obligation)
  /-- `deliver_message` has read the obligation, and sends the message -/
  | deliver (tenantId : Id) (o : Option Obligation)
  /-- the message was sent -/
  | dispatch (obligationId : Id)
  /-- `on_rejected` has read the obligation -/
  | reject (obligationId : Id)
  /-- `apply_status` has found a reminder that failed -/
  | undo (obligationId : Id)

def claimRow (o : Obligation) (db : Db) : Db :=
  let waits (p : Obligation) : Obligation := { p with state := .waitingOwnerApproval }
  (db.updateObligation (fun p => p.id = o.id) waits).event o.id (some o.state) .waitingOwnerApproval
    .systemCron none

def claimDue (now : Time) (limit : ℕ) (locked : List Id) (db : Db) : Db × List Job :=
  let rows := dueRows now limit locked db
  (rows.foldl (fun db o => claimRow o db) db, rows.map .ask)

def releaseClaim (o : Obligation) (now : Time) (db : Db) : Db :=
  let back (p : Obligation) : Obligation :=
    { p with state := o.state, nextFollowupAt := some (now + minutes 10) }
  (db.updateObligation (fun p => p.id = o.id ∧ p.state = .waitingOwnerApproval) back).event o.id
    (some .waitingOwnerApproval) o.state .systemCron none

/-! ### Reminders -/

/-- What the owner taps on the card of a reminder. -/
inductive Tap
  | send | snooze | paid
  deriving DecidableEq

/-- The state after a tap, and the next follow-up. -/
def Tap.outcome (now : Time) : Tap → ObligationState × Option Time
  | .send => (.dispatched, some (now + days 3))
  | .snooze => (.snoozed, some (now + days 3))
  | .paid => (.paid, none)

def Tap.apply (action : Tap) (now : Time) (p : Obligation) : Obligation :=
  { p with
    state := (action.outcome now).1
    nextFollowupAt := (action.outcome now).2
    attemptCount := p.attemptCount + if action = .send then 1 else 0 }

/-- **`decide_reminder`**, up to the send; `quiet` are the times at which nothing is sent. -/
def decideReminder (quiet : Time → Bool) (tenantId obligationId : Id) (action : Tap) (now : Time) (db : Db) :
    Db × List Job :=
  if action = .send ∧ quiet now then (db, [])
  else
    match db.obligation obligationId with
    | none => (db, [])
    | some o =>
      if o.tenantId ≠ tenantId ∨ o.state ≠ .waitingOwnerApproval then (db, [])
      else if action = .send ∧ OptedOut db o then
        let snoozed (p : Obligation) : Obligation :=
          { p with state := .snoozed, nextFollowupAt := some (now + days 30) }
        (db.updateObligation (fun p => p.id = obligationId) snoozed, [])
      else
        ((db.updateObligation (fun p => p.id = obligationId) (action.apply now)).event o.id
            (some o.state) (action.outcome now).1 .owner none,
          if action = .send then [.remind o] else [])

/-- The send of a reminder has failed. -/
def rollBack (o : Obligation) (now : Time) (db : Db) : Db :=
  let back (p : Obligation) : Obligation :=
    { p with state := .active, nextFollowupAt := some (now + minutes 10), attemptCount := p.attemptCount - 1 }
  (db.updateObligation (fun p => p.id = o.id) back).event o.id (some .dispatched) .active .systemCron none

/-- `record` of a message to a customer, if WhatsApp has named it. -/
def recordMessage (tenantId : Id) (kind : Kind) (toPhone : String) (obligationId : Option Id)
    (msgId : Option String) (db : Db) : Db :=
  match msgId with
  | none => db
  | some msgId =>
    let m : OutboundMessage := { msgId, tenantId, kind, toPhone, obligationId }
    { db with outbound := record m db.outbound }

def recordSent (o : Obligation) (now : Time) (db : Db) : Db :=
  let n := toString (o.attemptCount + 1)
  enqueue now (scopeUser o.tenantId o.partyId) ("reminder_" ++ o.id ++ "_" ++ n)
    ("Owner-approved reminder #" ++ n ++ " sent for invoice " ++ o.invoiceRef) true (some o.id) db

/-! ### Adjustments -/

/-- `_apply`: the obligation as the adjustment changes it. -/
def Adjustment.apply (a : Adjustment) (o : Obligation) : Obligation :=
  match a.adjustmentType, a.proposedAmountPaise, a.proposedDate with
  | .discountClaim, some amount, _ => { o with amountPaise := amount }
  | .partialPayment, some amount, _ => { o with amountPaise := amount }
  | .promiseDateChange, _, some date =>
    { o with dueDate := date, nextFollowupAt := some (midnight date), state := .active }
  | .utrProof, _, _ => { o with state := .paid, nextFollowupAt := none }
  | _, _, _ => o

def decisionText (a : Adjustment) (approve : Bool) (invoiceRef : String) : String :=
  "Owner " ++ (if approve then "approved " else "rejected ") ++
    (match a.adjustmentType with
      | .discountClaim => "DISCOUNT_CLAIM"
      | .partialPayment => "PARTIAL_PAYMENT"
      | .promiseDateChange => "PROMISE_DATE_CHANGE"
      | .utrProof => "UTR_PROOF") ++
    " on invoice " ++ invoiceRef ++ ": " ++ a.rawEvidenceText

def decideAdjustment (tenantId adjustmentId : Id) (approve : Bool) (now : Time) (db : Db) : Db :=
  match db.adjustment adjustmentId with
  | none => db
  | some a =>
    match db.obligation a.obligationId with
    | none => db
    | some o =>
      if o.tenantId ≠ tenantId ∨ a.status ≠ .pending then db
      else
        let change (p : Obligation) : Obligation := if approve then Adjustment.apply a p else p
        let decide (b : Adjustment) : Adjustment :=
          { b with status := if approve then .approved else .rejected, decidedAt := some now }
        let sourceId := a.continuumSourceId ++ "_owner_" ++ if approve then "ok" else "no"
        let db := db.updateObligation (fun p => p.id = o.id) change
        let db := { db with adjustments := updateWhere (fun b => b.id = adjustmentId) decide db.adjustments }
        let db := db.event o.id (some o.state) (change o).state .owner (some a.continuumSourceId)
        enqueue now (scopeUser tenantId o.partyId) sourceId (decisionText a approve o.invoiceRef) true
          (some o.id) db

/-- **`submit_debtor_claim`**, with the id of a new row and the source id that names the message. -/
def submitDebtorClaim (tenantId partyId obligationId : Id) (sourceId : String) (kind : AdjustmentType)
    (evidence : String) (amount : Option ℤ) (date : Option Day) (adjustmentId : Id) (now : Time) (db : Db) : Db :=
  if (∃ x ∈ amount, x < 0) ∨ (db.obligation obligationId).isNone ∨ (db.adjustment adjustmentId).isSome then db
  else
    let a : Adjustment := {
      id := adjustmentId, obligationId, adjustmentType := kind, proposedAmountPaise := amount
      proposedDate := date, rawEvidenceText := evidence, continuumSourceId := sourceId }
    let db := enqueue now (scopeUser tenantId partyId) sourceId evidence false none db
    if ∃ b ∈ db.adjustments, b.continuumSourceId = sourceId then db
    else { db with adjustments := db.adjustments ++ [a] }

/-! ### Messages -/

def transition (obligationId : Id) (fromState toState : ObligationState) (followup : Time) (attempts : ℤ)
    (db : Db) : Db :=
  let move (p : Obligation) : Obligation :=
    { p with state := toState, nextFollowupAt := some followup, attemptCount := p.attemptCount + attempts }
  match db.obligation obligationId with
  | none => db
  | some o =>
    if o.state = fromState then
      (db.updateObligation (fun p => p.id = obligationId ∧ p.state = fromState) move).event obligationId
        (some fromState) toState .owner none
    else db

/-- `deliver_message`, up to the send: the obligation that is read. -/
def readObligation (tenantId : Id) (obligationId : Option Id) (db : Db) : Option Obligation :=
  (obligationId.bind db.obligation).filter fun o => o.tenantId = tenantId

/-- `apply_status` of a failure: what is left to do is to undo a reminder. -/
def applyFailed (msgId : String) (errorCode : Option ℤ) (db : Db) : Db × List Job :=
  match lookup OutboundMessage.msgId msgId db.outbound with
  | none => (db, [])
  | some m =>
    if m.status = .failed ∨ m.status = .resent then (db, [])
    else
      let failed (m : OutboundMessage) : OutboundMessage := { m with status := .failed, errorCode }
      ({ db with outbound := updateWhere (fun m => m.msgId = msgId) failed db.outbound },
        if m.kind = .debtorReminder then m.obligationId.toList.map .undo else [])

/-- `_FORWARD`: the states before one that a receipt tells of. -/
def forward : MessageStatus → List MessageStatus
  | .sent => [.held]
  | .delivered => [.held, .sent]
  | .read => [.held, .sent, .delivered]
  | _ => []

/-- **`apply_status`**, up to the undoing of a reminder. -/
def applyStatus (msgId : String) (status : MessageStatus) (errorCode : Option ℤ) (db : Db) : Db × List Job :=
  if status = .failed then applyFailed msgId errorCode db
  else
    let next (m : OutboundMessage) : OutboundMessage := { m with status }
    ({ db with outbound := updateWhere (fun m => m.msgId = msgId ∧ m.status ∈ forward status) next db.outbound },
      [])

def undoReminder (obligationId : Id) (now : Time) (db : Db) : Db :=
  let back (p : Obligation) : Obligation :=
    { p with
      state := .active
      attemptCount := max (p.attemptCount - 1) 0
      nextFollowupAt := some (now + days 1) }
  match db.obligation obligationId with
  | none => db
  | some o =>
    if o.state = .dispatched then
      (db.updateObligation (fun p => p.id = obligationId) back).event obligationId (some .dispatched) .active
        .systemCron none
    else db

/-- `_handle_opt`: a customer says stop, or start, to the shops of the tenants. -/
def handleOpt (phone : String) (receiving : Option Id) (stop : Bool) (now : Time) (db : Db) : Db :=
  let opt (p : Party) : Party :=
    { p with optedOutAt := if stop then some now else none, lastInboundAt := some now }
  { db with
    parties := updateWhere (fun p => p.whatsappPhone = phone ∧ ∀ t ∈ receiving, p.tenantId = t) opt db.parties }

/-! ### Calls -/

structure State where
  db : Db := {}
  jobs : List Job := []

/-- A call, or what is left of one: the job with its number. -/
inductive Action
  | importRows (tenantId : Id) (now : Time) (rows : List SheetRow)
  | claimDue (now : Time) (limit : ℕ) (locked : List Id)
  | decideReminder (tenantId obligationId : Id) (tap : Tap) (now : Time)
  | submitDebtorClaim (tenantId partyId obligationId : Id) (sourceId : String) (kind : AdjustmentType)
    (evidence : String) (amount : Option ℤ) (date : Option Day) (adjustmentId : Id) (now : Time)
  | decideAdjustment (tenantId adjustmentId : Id) (approve : Bool) (now : Time)
  | deliverMessage (tenantId : Id) (obligationId : Option Id)
  | onRejected (tenantId obligationId : Id)
  | applyStatus (msgId : String) (status : MessageStatus) (errorCode : Option ℤ)
  | handleOpt (phone : String) (receiving : Option Id) (stop : Bool) (now : Time)
  /-- the job goes on; `ok` says that what it sends was sent -/
  | goOn (job : ℕ) (ok : Bool) (msgId : Option String) (toPhone : String) (now : Time)

/-- What a job does when it goes on, and what is left of it then. -/
def goOn (ok : Bool) (msgId : Option String) (toPhone : String) (now : Time) (db : Db) : Job → Db × List Job
  | .ask o => (if ok then db else releaseClaim o now db, [])
  | .remind o =>
    if ok then (recordMessage o.tenantId .debtorReminder toPhone (some o.id) msgId db, [.remember o])
    else (rollBack o now db, [])
  | .remember o => (if ok then recordSent o now db else db, [])
  | .deliver tenantId o =>
    if ok then
      (recordMessage tenantId (if o.isSome then .debtorReminder else .customerText) toPhone (o.map Obligation.id)
          msgId db,
        (o.filter fun o => o.state = .waitingOwnerApproval).toList.map fun o => .dispatch o.id)
    else (db, [])
  | .dispatch obligationId => (transition obligationId .waitingOwnerApproval .dispatched (now + days 3) 1 db, [])
  | .reject obligationId => (transition obligationId .waitingOwnerApproval .snoozed (now + days 3) 0 db, [])
  | .undo obligationId => (undoReminder obligationId now db, [])

def State.with (s : State) (r : Db × List Job) : State := { db := r.1, jobs := s.jobs ++ r.2 }

/-- **A step**: a call up to its first send, or what is left of a call. -/
def step (quiet : Time → Bool) (s : State) : Action → State
  | .importRows tenantId now rows => s.with (importRows tenantId now rows s.db, [])
  | .claimDue now limit locked => s.with (claimDue now limit locked s.db)
  | .decideReminder tenantId obligationId tap now =>
    s.with (decideReminder quiet tenantId obligationId tap now s.db)
  | .submitDebtorClaim tenantId partyId obligationId sourceId kind evidence amount date adjustmentId now =>
    s.with (submitDebtorClaim tenantId partyId obligationId sourceId kind evidence amount date adjustmentId now
      s.db, [])
  | .decideAdjustment tenantId adjustmentId approve now =>
    s.with (decideAdjustment tenantId adjustmentId approve now s.db, [])
  | .deliverMessage tenantId obligationId =>
    s.with (s.db, [.deliver tenantId (readObligation tenantId obligationId s.db)])
  | .onRejected tenantId obligationId =>
    s.with (s.db, ((readObligation tenantId (some obligationId) s.db).filter fun o =>
      o.state = .waitingOwnerApproval).toList.map fun o => .reject o.id)
  | .applyStatus msgId status errorCode => s.with (applyStatus msgId status errorCode s.db)
  | .handleOpt phone receiving stop now => s.with (handleOpt phone receiving stop now s.db, [])
  | .goOn job ok msgId toPhone now =>
    match s.jobs[job]? with
    | none => s
    | some j => { s with jobs := s.jobs.eraseIdx job }.with (goOn ok msgId toPhone now s.db j)

end Smara.Server.Ledger
