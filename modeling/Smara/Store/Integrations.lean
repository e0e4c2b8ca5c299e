import Smara.Store.Schema

/-! # Actions of connected applications

An action is requested under a policy, decided by its owner, claimed by a worker for the time of a lease, and
completed or failed. A claim first gives back the actions whose lease has expired. -/

namespace Smara.Store.Integrations

open Lib.Table Lib.Transaction TaskStore.Schema TaskStore.Lifecycle Store.Schema

def integration (accountId provider : String) (st : StoreDb) : Except Err Connection :=
  match st.connections.find? fun c => c.accountId = accountId ∧ c.provider = provider with
  | some connection => .ok connection
  | none => .error (.keyError provider)

/-! ### Requests -/

def readActions : List String := ["gmail.search", "calendar.list", "telegram.search", "github.list", "drive.search"]

def riskOf (action : String) : Risk := if action ∈ readActions then .read else .external

def statusOf (policy : String) (risk : Risk) : ActionStatus :=
  if policy = "blocked" ∨ policy = "observe" ∧ risk = .external then .blocked
  else if policy = "draft" ∧ risk = .external then .draft
  else if risk = .external then .awaitingApproval
  else .draft

def requestIntegrationAction (env : Env) (accountId provider action preview idempotencyKey payload : String) :
    StoreDb → Except Err IntegrationAction × StoreDb :=
  transact fun st => do
    let connection ← integration accountId provider st
    let risk := riskOf action
    match st.actions.find? fun r => r.accountId = accountId ∧ r.idempotencyKey = idempotencyKey with
    | some prior => .ok (prior, st)
    | none =>
      let row : IntegrationAction :=
        { id := env.uuid st.actions.length, accountId, connectionId := connection.id, action, preview, idempotencyKey
          risk, status := statusOf connection.policy risk, payload, approvalNote := "", leaseOwner := none
          leaseExpiresAt := none, attempts := 0, maxAttempts := 3, retryAt := none, lastError := none
          resultSummary := none, createdAt := env.now }
      .ok (row, { st with actions := st.actions ++ [row] })

/-- `UPDATE integration_action_log SET … WHERE p` -/
def updActions (p : IntegrationAction → Prop) [DecidablePred p] (f : IntegrationAction → IntegrationAction)
    (st : StoreDb) : StoreDb :=
  { st with actions := updateWhere p f st.actions }

def decideIntegrationAction (accountId : String) (actionId : Uuid) (approved : Bool) (note : String)
    (editedPreview editedPayload : Option String) : StoreDb → Except Err IntegrationAction × StoreDb :=
  transact fun st =>
    match st.actions.find? fun r => r.id = actionId ∧ r.accountId = accountId with
    | none => .error (.keyErrorId actionId)
    | some row =>
      if row.status ≠ .awaitingApproval then .error (.valueError "action is not awaiting approval")
      else
        let decided (r : IntegrationAction) : IntegrationAction :=
          { r with
            status := if approved then .approved else .denied
            approvalNote := note
            preview := editedPreview.getD row.preview
            payload := editedPayload.getD row.payload }
        .ok (decided row, updActions (fun r => r.id = actionId) decided st)

/-! ### The worker -/

def Lapsed (now : Time) (r : IntegrationAction) : Prop := r.status = .running ∧ ∃ t ∈ r.leaseExpiresAt, t < now

instance (now : Time) : DecidablePred (Lapsed now) := fun _ => inferInstanceAs (Decidable (_ ∧ _))

def Ready (now : Time) (r : IntegrationAction) : Prop := r.status = .approved ∧ ∀ t ∈ r.retryAt, t ≤ now

instance (now : Time) : DecidablePred (Ready now) := fun _ => inferInstanceAs (Decidable (_ ∧ _))

def giveBack (now : Time) (st : StoreDb) : StoreDb :=
  updActions (Lapsed now) (fun r => { r with status := .approved, leaseOwner := none, leaseExpiresAt := none }) st

def claimIntegrationAction (env : Env) (workerId : String) (leaseSeconds : ℤ) :
    StoreDb → Except Err (Option IntegrationAction) × StoreDb :=
  transact fun st =>
    let st := giveBack env.now st
    match firstBy (fun r r' => r.createdAt < r'.createdAt) (st.actions.filter fun r => Ready env.now r) with
    | none => .ok (none, st)
    | some row =>
      let claimed (r : IntegrationAction) : IntegrationAction :=
        { r with
          status := .running
          leaseOwner := some workerId
          leaseExpiresAt := some (env.clock 1 + seconds leaseSeconds)
          attempts := r.attempts + 1
          retryAt := none }
      .ok (some (claimed row), updActions (fun r => r.id = row.id) claimed st)

def Holds (actionId : Uuid) (workerId : String) (r : IntegrationAction) : Prop :=
  r.id = actionId ∧ r.status = .running ∧ r.leaseOwner = some workerId

instance (actionId : Uuid) (workerId : String) : DecidablePred (Holds actionId workerId) :=
  fun _ => inferInstanceAs (Decidable (_ ∧ _))

def completeIntegrationAction (actionId : Uuid) (workerId : String) (result error : Option String) :
    StoreDb → Except Err Unit × StoreDb :=
  transact fun st =>
    match st.actions.find? fun r => Holds actionId workerId r with
    | none => .error (.keyError "integration lease")
    | some _ =>
      let released (r : IntegrationAction) : IntegrationAction := { r with leaseOwner := none, leaseExpiresAt := none }
      let failure := error.filter (· ≠ "")
      .ok ((), updActions (fun r => r.id = actionId) (fun r =>
        match failure with
        | some e => { released r with status := .failed, lastError := some (clip 2000 e) }
        | none => { released r with
            status := .completed
            resultSummary := some (clip 2000 ((result.filter (· ≠ "")).getD "completed")) }) st)

inductive Failure
  | retry | failed
  deriving DecidableEq

def failIntegrationAction (env : Env) (actionId : Uuid) (workerId error : String) (retryable : Bool)
    (retryDelaySeconds : ℤ) : StoreDb → Except Err Failure × StoreDb :=
  transact fun st =>
    match st.actions.find? fun r => Holds actionId workerId r with
    | none => .error (.keyError "integration lease")
    | some row =>
      let released (r : IntegrationAction) : IntegrationAction :=
        { r with leaseOwner := none, leaseExpiresAt := none, lastError := some (clip 2000 error) }
      if retryable ∧ row.risk = .read ∧ row.attempts < row.maxAttempts then
        .ok (.retry, updActions (fun r => r.id = actionId) (fun r =>
          { released r with status := .approved, retryAt := some (env.now + seconds (max 1 retryDelaySeconds)) }) st)
      else
        .ok (.failed, updActions (fun r => r.id = actionId) (fun r =>
          { released r with status := .failed, retryAt := none }) st)

end Smara.Store.Integrations
