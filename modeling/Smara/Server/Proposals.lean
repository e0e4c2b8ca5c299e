import Smara.Lib.Round
import Smara.Server.Ledger

/-! # Proposals of an adjustment

A session proposes an adjustment with the figures that the customer has named. They are checked against what
is owed, and what would be owed is worked out; the proposal is then a pending adjustment whose card the owner
is shown.

* `computeAmount`: what would be owed.
* `validateGated`: the checks of `propose_ledger_adjustment`.
* `openGate`: the pending adjustment. -/

namespace Smara.Server.Proposals

open Lib.Table Lib.Round Server.Schema Server.Ledger
open TaskStore.Schema (Time)

/-! ### Arguments -/

/-- What `float` makes of an argument. -/
inductive Number
  | rational (q : ℚ)
  /-- it is not finite, or not a number -/
  | nan
  /-- a `TypeError` or a `ValueError` -/
  | bad
  /-- an `OverflowError` -/
  | huge
  deriving DecidableEq

/-- What `date.fromisoformat` makes of an argument. -/
inductive DateText
  | date (d : Day)
  /-- a `ValueError` -/
  | malformed
  /-- a `TypeError` -/
  | bad
  deriving DecidableEq

structure Args where
  obligationId : String
  kind : Option AdjustmentType
  paidRupees : Option Number := none
  discountPercent : Option Number := none
  newAmountRupees : Option Number := none
  newDueDate : Option DateText := none
  evidence : String := ""

inductive Trust
  | trusted | untrusted | system
  deriving DecidableEq

structure SessionCtx where
  id : Id
  tenantId : Id
  trust : Trust
  /-- of an untrusted session: the only party that it may touch -/
  partyId : Option Id := none
  callId : String := ""

/-- What a call is refused for. -/
inductive Refusal
  | unknownObligation | kind | paidRange | percentRange | notNumbers | noAmount | otherParty | amountRange
  | pastDate | dateFormat
  deriving DecidableEq

inductive Fault
  | refused (r : Refusal)
  | raised
  deriving DecidableEq

/-- The arguments of a proposal that has passed. -/
structure Proposal where
  obligationId : Id
  kind : AdjustmentType
  newAmountRupees : Option ℚ
  newDueDate : Option Day
  evidence : String

/-! ### Checks -/

/-- `round(…, 2)` -/
def round2 (q : ℚ) : ℚ := halfEven (q * 100) / 100

def computeAmount (args : Args) (owed : ℚ) : Except Fault Args :=
  match args.kind, args.paidRupees, args.discountPercent with
  | some .partialPayment, some (.rational paid), _ =>
    if 0 < paid ∧ paid < owed then
      .ok { args with newAmountRupees := some (.rational (round2 (owed - paid))) }
    else .error (.refused .paidRange)
  | some .partialPayment, some .nan, _ => .error (.refused .paidRange)
  | some .partialPayment, some .bad, _ => .error (.refused .notNumbers)
  | some .partialPayment, some .huge, _ => .error .raised
  | some .discountClaim, _, some (.rational pct) =>
    if 0 < pct ∧ pct < 100 then
      .ok { args with newAmountRupees := some (.rational (round2 (owed * (1 - pct / 100)))) }
    else .error (.refused .percentRange)
  | some .discountClaim, _, some .nan => .error (.refused .percentRange)
  | some .discountClaim, _, some .bad => .error (.refused .notNumbers)
  | some .discountClaim, _, some .huge => .error .raised
  | _, _, _ => .ok args

/-- The check of `new_amount_rupees`. -/
def checkAmount (amountPaise : ℤ) : Option Number → Except Fault (Option ℚ)
  | none => .ok none
  | some (.rational q) =>
    if 0 < q * 100 ∧ q * 100 < amountPaise then .ok (some q) else .error (.refused .amountRange)
  | some .nan => .error (.refused .amountRange)
  | some .bad => .error .raised
  | some .huge => .error .raised

/-- The check of `new_due_date`. -/
def checkDate (today : Day) : Option DateText → Except Fault (Option Day)
  | none => .ok none
  | some (.date d) => if d < today then .error (.refused .pastDate) else .ok (some d)
  | some .malformed => .error (.refused .dateFormat)
  | some .bad => .error .raised

def obligationOf (tenantId : Id) (id : String) (db : Db) : Option Obligation :=
  (db.obligation id).filter fun o => o.tenantId = tenantId

/-- The checks after the amount has been worked out. -/
def checkProposal (ctx : SessionCtx) (today : Day) (o : Obligation) (kind : AdjustmentType) (args : Args) :
    Except Fault Proposal :=
  if (kind = .discountClaim ∨ kind = .partialPayment) ∧ args.newAmountRupees = none then
    .error (.refused .noAmount)
  else if ctx.trust = .untrusted ∧ some o.partyId ≠ ctx.partyId then .error (.refused .otherParty)
  else
    match checkAmount o.amountPaise args.newAmountRupees, checkDate today args.newDueDate with
    | .error e, _ => .error e
    | .ok _, .error e => .error e
    | .ok newAmountRupees, .ok newDueDate =>
      .ok { obligationId := o.id, kind, newAmountRupees, newDueDate, evidence := args.evidence }

/-- **`validate_gated`** of `propose_ledger_adjustment`. -/
def validateGated (ctx : SessionCtx) (today : Day) (args : Args) (db : Db) : Except Fault Proposal :=
  match obligationOf ctx.tenantId args.obligationId db with
  | none => .error (.refused .unknownObligation)
  | some o =>
    if o.state = .paid then .error (.refused .unknownObligation)
    else
      match args.kind with
      | none => .error (.refused .kind)
      | some kind =>
        match computeAmount args (o.amountPaise / 100) with
        | .error e => .error e
        | .ok args => checkProposal ctx today o kind args

/-! ### The gate -/

/-- `proposed_amount_paise` -/
def Proposal.paise (p : Proposal) : Option ℤ := p.newAmountRupees.map fun q => halfEven (q * 100)

/-- The card has been shown: `owner_notified_at` of the adjustment with the source id. -/
def notified (sourceId : String) (now : Time) (db : Db) : Db :=
  let shown (a : Adjustment) : Adjustment := { a with ownerNotifiedAt := some now }
  { db with adjustments := updateWhere (fun a => a.continuumSourceId = sourceId) shown db.adjustments }

/-- **`open_gate`** of `propose_ledger_adjustment`, up to the card: the source id names the session, the call
and the evidence, and `adjustmentId` is the id of a new row. -/
def openGate (tenantId : Id) (sourceId : String) (adjustmentId : Id) (card : String) (now : Time)
    (p : Proposal) (db : Db) : Db :=
  match obligationOf tenantId p.obligationId db with
  | none => db
  | some o =>
    let evidence := ((if p.evidence = "" then card else p.evidence).take 2000).toString
    notified sourceId now
      (submitDebtorClaim tenantId o.partyId o.id sourceId p.kind evidence p.paise p.newDueDate adjustmentId now db)

end Smara.Server.Proposals
