import Smara.TaskStore.Schema

/-! # The tables of the server

The server of a shop keeps invoices that are to be paid, its `obligations`, the adjustments of them that
are proposed, and a log of their states. What is to be remembered is queued in an outbox, and what is sent
is logged.

* `Obligation`, `Adjustment`, `ObligationEvent`: the ledger.
* `OutboxRow`, `enqueue`: the outbox.
* `OutboundMessage`, `record`: the messages. -/

namespace Smara.Server.Schema

open Lib.Table
open TaskStore.Schema (Time seconds)

abbrev Id := String

abbrev Day := ℤ

def minutes (n : ℤ) : Time := seconds (60 * n)

def days (n : ℤ) : Time := seconds (86400 * n)

def midnight (d : Day) : Time := days d

/-! ### The ledger -/

structure Party where
  id : Id
  tenantId : Id
  canonicalName : String
  whatsappPhone : String
  gstin : Option String := none
  lastInboundAt : Option Time := none
  optedOutAt : Option Time := none
  deriving DecidableEq

inductive ObligationState
  | draft | active | waitingOwnerApproval | dispatched | disputed | paid | snoozed
  deriving DecidableEq

structure Obligation where
  id : Id
  tenantId : Id
  partyId : Id
  invoiceRef : String
  amountPaise : ℤ
  dueDate : Day
  nextFollowupAt : Option Time
  attemptCount : ℤ := 0
  state : ObligationState
  lastContinuumSourceId : Option String := none
  deriving DecidableEq

inductive AdjustmentType
  | discountClaim | partialPayment | promiseDateChange | utrProof
  deriving DecidableEq

inductive AdjustmentStatus
  | pending | approved | rejected
  deriving DecidableEq

structure Adjustment where
  id : Id
  obligationId : Id
  adjustmentType : AdjustmentType
  proposedAmountPaise : Option ℤ
  proposedDate : Option Day
  rawEvidenceText : String
  continuumSourceId : String
  status : AdjustmentStatus := .pending
  ownerNotifiedAt : Option Time := none
  decidedAt : Option Time := none
  deriving DecidableEq

inductive Actor
  | owner | debtor | systemCron
  deriving DecidableEq

structure ObligationEvent where
  obligationId : Id
  fromState : Option ObligationState
  toState : ObligationState
  actor : Actor
  continuumSourceId : Option String := none
  deriving DecidableEq

/-! ### The outbox -/

inductive OutboxStatus
  | pending | done | dead
  deriving DecidableEq

structure OutboxRow where
  /-- the number that the sequence of the table has given -/
  id : ℕ
  userId : String
  sourceId : String
  text : String
  trusted : Bool
  stampObligationId : Option Id := none
  status : OutboxStatus := .pending
  attempts : ℕ := 0
  nextAttemptAt : Time
  deriving DecidableEq

def scopeUser (tenantId partyId : Id) : String := tenantId ++ "_" ++ partyId

/-! ### Messages -/

inductive Kind
  | ownerReminderCard | ownerClaimCard | ownerAgentCard | ownerNote | ownerText | ownerDigest
  | ownerDocument | debtorReminder | customerText
  deriving DecidableEq

def cardKinds : List Kind := [.ownerReminderCard, .ownerClaimCard, .ownerAgentCard, .ownerNote]

inductive MessageStatus
  | held | sent | delivered | read | failed | resent
  deriving DecidableEq

structure OutboundMessage where
  msgId : String
  tenantId : Id
  kind : Kind
  toPhone : String
  status : MessageStatus := .sent
  obligationId : Option Id := none
  adjustmentId : Option Id := none
  agentSessionId : Option Id := none
  /-- of a note that is held -/
  payload : Option String := none
  errorCode : Option ℤ := none
  deriving DecidableEq

/-- `record`: `ON CONFLICT (msg_id) DO NOTHING` -/
def record (m : OutboundMessage) (t : List OutboundMessage) : List OutboundMessage :=
  if ∃ m' ∈ t, m'.msgId = m.msgId then t else t ++ [m]

/-! ### The database -/

structure Db where
  parties : List Party := []
  obligations : List Obligation := []
  adjustments : List Adjustment := []
  events : List ObligationEvent := []
  outbox : List OutboxRow := []
  /-- the last number of the sequence -/
  outboxSeq : ℕ := 0
  outbound : List OutboundMessage := []

/-- `enqueue`: `ON CONFLICT (source_id) DO NOTHING`; the sequence goes on in any case. -/
def enqueue (now : Time) (userId sourceId text : String) (trusted : Bool) (stampObligationId : Option Id)
    (db : Db) : Db :=
  let id := db.outboxSeq + 1
  if ∃ r ∈ db.outbox, r.sourceId = sourceId then { db with outboxSeq := id }
  else
    { db with
      outboxSeq := id
      outbox := db.outbox ++ [{ id, userId, sourceId, text, trusted, stampObligationId, nextAttemptAt := now }] }

def Db.obligation (id : Id) (db : Db) : Option Obligation := lookup Obligation.id id db.obligations

def Db.party (id : Id) (db : Db) : Option Party := lookup Party.id id db.parties

def Db.adjustment (id : Id) (db : Db) : Option Adjustment := lookup Adjustment.id id db.adjustments

/-- `UPDATE obligations … WHERE id = … AND …` -/
def Db.updateObligation (p : Obligation → Prop) [DecidablePred p] (f : Obligation → Obligation) (db : Db) : Db :=
  { db with obligations := updateWhere p f db.obligations }

def Db.event (obligationId : Id) (fromState : Option ObligationState) (toState : ObligationState)
    (actor : Actor) (continuumSourceId : Option String) (db : Db) : Db :=
  { db with events := db.events ++ [{ obligationId, fromState, toState, actor, continuumSourceId }] }

end Smara.Server.Schema
