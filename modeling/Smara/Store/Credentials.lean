import Mathlib.Algebra.Order.Group.Int
import Smara.Lib.TwoPhase
import Smara.Store.Schema
import Smara.TaskStore.Calls

/-! # One-time credentials and command-line devices

Pairing codes, device requests and authorization states. A call redeems one with a `SELECT`, which
reads the committed tables, and the write transaction that begins with its first `UPDATE` or `INSERT`:
it is a `CheckedCall` in these two parts. -/

namespace Smara.Store.Credentials

open Lib.Table Lib.Transaction Lib.TwoPhase TaskStore.Schema TaskStore.Calls
open Store.Schema

/-- The row that a `SELECT` finds, or `KeyError`. -/
def found {ρ β : Type} (row : Option ρ) (key : String) : Except (Except Err β) ρ :=
  match row with
  | some row => .ok row
  | none => .error (.error (.keyError key))

/-! ### Pairing of a command line -/

/-- `create_cli_pairing` with the code it draws. -/
def createCliPairing (env : Env) (code accountId name : String) (ttlSeconds : ℤ) :
    StoreDb → Except Err Unit × StoreDb :=
  transact fun st => .ok ((), { st with
    cliPairings := st.cliPairings ++
      [⟨.sha256 code, accountId, name, env.now + seconds ttlSeconds, none⟩] })

/-- `consume_cli_pairing`. The count of updated rows is not read. -/
def consumeCliPairing (env : Env) (code : String) : CheckedCall StoreDb CliPairing (Except Err CliPairing) where
  check st := found (st.cliPairings.find? fun p =>
    p.codeHash = .sha256 code ∧ p.consumedAt = none ∧ env.now < p.expiresAt) "cli pairing"
  write row := transact fun st => .ok (row, { st with
    cliPairings := updateWhere (fun p => p.codeHash = .sha256 code ∧ p.consumedAt = none)
      (fun p => { p with consumedAt := some env.now }) st.cliPairings })

/-! ### Device requests -/

/-- `create_cli_device_request` with the code it draws. -/
def createCliDeviceRequest (env : Env) (deviceCode name : String) (ttlSeconds : ℤ) :
    StoreDb → Except Err Unit × StoreDb :=
  transact fun st => .ok ((), { st with
    cliDeviceRequests := st.cliDeviceRequests ++
      [⟨.sha256 deviceCode, name, none, env.now + seconds ttlSeconds, none, none⟩] })

/-- An account that `if row["account_id"]` takes for given. -/
def Bound (accountId : Option String) : Prop := ∃ a ∈ accountId, a ≠ ""

instance (accountId : Option String) : Decidable (Bound accountId) := by
  unfold Bound; infer_instance

def authorizeCliDevice (env : Env) (deviceCode accountId : String) :
    StoreDb → Except Err Unit × StoreDb :=
  transact fun st =>
    match st.cliDeviceRequests.find? fun r =>
      r.deviceCodeHash = .sha256 deviceCode ∧ r.consumedAt = none ∧ env.now < r.expiresAt with
    | none => .error (.keyError "cli device request")
    | some row =>
      if Bound row.accountId then .error (.keyError "cli device request")
      else .ok ((), { st with
        cliDeviceRequests := updateWhere (fun r => r.deviceCodeHash = .sha256 deviceCode ∧
            r.accountId = none ∧ r.consumedAt = none)
          (fun r => { r with accountId := some accountId, approvedAt := some env.now })
          st.cliDeviceRequests })

/-- The result of `poll_cli_device`. -/
inductive Poll
  | expired
  | used
  | pending
  | approved (accountId : Option String) (name : String)
  deriving DecidableEq

/-- `poll_cli_device`. The count of updated rows decides between `used` and `approved`. -/
def pollCliDevice (env : Env) (deviceCode : String) : CheckedCall StoreDb CliDeviceRequest (Except Err Poll) where
  check st :=
    match st.cliDeviceRequests.find? fun r => r.deviceCodeHash = .sha256 deviceCode with
    | none => .error (.ok .expired)
    | some row =>
      if row.consumedAt.isSome then .error (.ok .used)
      else if row.expiresAt ≤ env.now then .error (.ok .expired)
      else if Bound row.accountId then .ok row
      else .error (.ok .pending)
  write row := transact fun st =>
    let p : CliDeviceRequest → Prop := fun r =>
      r.deviceCodeHash = .sha256 deviceCode ∧ r.consumedAt = none
    let updated := st.cliDeviceRequests.countP fun r => p r
    .ok (if updated = 1 then .approved row.accountId row.name else .used, { st with
      cliDeviceRequests := updateWhere p (fun r => { r with consumedAt := some env.now })
        st.cliDeviceRequests })

/-! ### Registered devices -/

/-! ### Authorization states -/

def createOauthState (env : Env) (accountId provider state codeVerifier : String) :
    StoreDb → Except Err Unit × StoreDb :=
  transact fun st => .ok ((), { st with
    oauthStates := st.oauthStates ++
      [⟨.sha256 state, accountId, provider, codeVerifier, env.clock 1 + seconds 600, none⟩] })

def consumeOauthState (env : Env) (state provider : String) :
    CheckedCall StoreDb OauthState (Except Err OauthState) where
  check st := found (st.oauthStates.find? fun s => s.stateHash = .sha256 state ∧
    s.provider = provider ∧ s.consumedAt = none ∧ env.now < s.expiresAt) "oauth state"
  write row := transact fun st => .ok (row, { st with
    oauthStates := updateWhere (fun s => s.stateHash = .sha256 state)
      (fun s => { s with consumedAt := some env.now }) st.oauthStates })

/-! ### Pairing of a desktop -/

/-- `pair_executor` with the token it draws. -/
def pairExecutor (env : Env) (code token : String) : CheckedCall StoreDb Pairing (Except Err Uuid) where
  check st := found (openPairing code env.now st.tasks) "pairing"
  write row := onTasks (transaction fun db =>
    .ok (env.uuid db.desktopExecutors.length, pairExecutorWrite env code token row db))

end Smara.Store.Credentials
