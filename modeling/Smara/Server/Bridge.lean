import Smara.Lib.Chronicle
import Smara.TaskStore.Schema

/-! # The bridge to the owner's PC

The helper on a paired PC asks the server for browser commands, in requests that wait for a job of its shop, and
posts what has come of them. The server creates the jobs, and waits for each with a deadline.

* `Device`, `BridgeJob`: the tables.
* `claimJob`, `finishJob`, `expireJob`, `revokeAll`: the transactions on them.
* `Call`, `Op`, `step`: the requests, and what is left of them, in any order.
* `Event`: what the devices have been given, and what has been taken from them. -/

namespace Smara.Server.Bridge

open Lib.Table
open TaskStore.Schema (Time seconds)

/-! ### Tables -/

/-- A row of `bridge_pairings`. -/
structure Pairing where
  codeHash : String
  tenant : String
  expires : Time

/-- A row of `bridge_devices`. -/
structure Device where
  id : String
  tenant : String
  tokenHash : String
  lastSeen : Time
  revoked : Option Time := none

inductive Status
  | pending | claimed | done | expired
  deriving DecidableEq

/-- A row of `bridge_jobs`. -/
structure BridgeJob where
  id : String
  tenant : String
  sessionId : String
  command : String
  created : Time
  status : Status := .pending
  device : Option String := none
  result : Option String := none

/-- What `device_for_token` returns: the device, and its shop. -/
structure Client where
  device : String
  tenant : String

/-- What the server computes outside of the tables. -/
structure Host where
  /-- `_hash` -/
  hash : String → String
  /-- `code.strip().upper()` -/
  typed : String → String
  /-- the text is one that a `jsonb` column takes -/
  isJson : String → Bool

def pairTtl : Time := seconds 3600

def reachableWithin : Time := seconds 600

/-! ### Devices -/

def Paired (tenant : String) (d : Device) : Prop := d.tenant = tenant ∧ d.revoked = none

instance (tenant : String) : DecidablePred (Paired tenant) := fun _ => inferInstanceAs (Decidable (_ ∧ _))

/-- `paired_device`: the one that was seen last. -/
def pairedDevice (tenant : String) (devices : List Device) : Option Device :=
  firstBy (fun d d' => d'.lastSeen < d.lastSeen) (devices.filter fun d => Paired tenant d)

def reachableDevice (now : Time) (tenant : String) (devices : List Device) : Option Device :=
  (pairedDevice tenant devices).filter fun d => now - reachableWithin < d.lastSeen

def Bears (tokenHash : String) (d : Device) : Prop := d.tokenHash = tokenHash ∧ d.revoked = none

instance (tokenHash : String) : DecidablePred (Bears tokenHash) := fun _ => inferInstanceAs (Decidable (_ ∧ _))

/-- `device_for_token`, with the table that it leaves. -/
def deviceForToken (now : Time) (tokenHash : String) (devices : List Device) : Option Client × List Device :=
  let found := devices.find? fun d => Bears tokenHash d
  (found.map fun d => ⟨d.id, d.tenant⟩, updateWhere (Bears tokenHash) (fun d => { d with lastSeen := now }) devices)

/-! ### Jobs -/

def Claimable (now : Time) (tenant : String) (locked : List String) (j : BridgeJob) : Prop :=
  j.tenant = tenant ∧ j.status = .pending ∧ now - seconds 120 < j.created ∧ j.id ∉ locked

instance (now : Time) (tenant : String) (locked : List String) : DecidablePred (Claimable now tenant locked) :=
  fun _ => inferInstanceAs (Decidable (_ ∧ _))

/-- The job that `claim_job` finds: the oldest one that no other transaction holds. -/
def nextJob (now : Time) (tenant : String) (locked : List String) (jobs : List BridgeJob) : Option BridgeJob :=
  firstBy (fun j j' => j.created < j'.created) (jobs.filter fun j => Claimable now tenant locked j)

/-- `claim_job`, of the job that it finds. -/
def claimJob (c : Client) (id : String) (jobs : List BridgeJob) : List BridgeJob :=
  updateWhere (fun j => j.id = id) (fun j => { j with status := .claimed, device := some c.device }) jobs

/-- The job is one that `finish_job` takes the result of. -/
def Finishable (c : Client) (id : String) (j : BridgeJob) : Prop :=
  j.id = id ∧ j.tenant = c.tenant ∧ j.status = .claimed

instance (c : Client) (id : String) : DecidablePred (Finishable c id) := fun _ => inferInstanceAs (Decidable (_ ∧ _))

/-- `json.dumps(result)[:200_000]` -/
def cut (result : String) : String := String.ofList (result.toList.take 200000)

/-- `finish_job`, of a result that the column takes. -/
def finishJob (c : Client) (id result : String) (jobs : List BridgeJob) : List BridgeJob :=
  updateWhere (Finishable c id) (fun j => { j with status := .done, result := some (cut result) }) jobs

def Open (j : BridgeJob) : Prop := j.status = .pending ∨ j.status = .claimed

instance : DecidablePred Open := fun _ => inferInstanceAs (Decidable (_ ∨ _))

def expire (j : BridgeJob) : BridgeJob := { j with status := .expired }

/-- The last statement of `run_pc_tool`, and of a browser step. -/
def expireJob (id : String) (jobs : List BridgeJob) : List BridgeJob :=
  updateWhere (fun j => j.id = id ∧ Open j) expire jobs

/-! ### Requests -/

inductive Event
  | handed (job device : String)
  | taken (job device : String)
  | expired (job : String)
  | revoked (device : String)
  deriving DecidableEq

/-- What is left to do of a request. -/
inductive Call
  /-- the loop of `/poll`: a claim is next -/
  | poll (token : String) (c : Client)
  /-- the loop of `/poll`, after its sleep -/
  | refresh (token : String) (c : Client)
  | result (c : Client) (job result : String)
  /-- the PC is reachable, and the job is to be inserted -/
  | create (tenant sessionId command : String)
  /-- the loop of `run_pc_tool`, and of a browser step -/
  | wait (job : String)

structure State where
  now : Time := 0
  pairings : List Pairing := []
  devices : List Device := []
  jobs : List BridgeJob := []
  calls : List Call := []
  log : List Event := []

/-- What decides how a call goes on. -/
structure Answer where
  /-- the rows that other transactions hold -/
  locked : List String := []
  /-- the deadline of the loop has passed -/
  late : Bool := false
  /-- the id of a row that is inserted -/
  id : String := ""

/-- A request, what is left of one, or the passing of time. -/
inductive Op
  | pass (elapsed : ℕ)
  | startPairing (tenant code : String)
  /-- `/pair`, with the token and the id that are generated -/
  | pair (code token id : String)
  | poll (token : String)
  | result (token job result : String)
  /-- `run_pc_tool`, or a browser step -/
  | runPcTool (tenant sessionId command : String)
  /-- `revoke_all`; rows that were inserted while it ran are spared -/
  | revokeAll (tenant : String) (spared : List String)
  | goOn (call : ℕ) (a : Answer)
  /-- the request of a call is gone -/
  | drop (call : ℕ)

variable (host : Host)

def startPairing (tenant code : String) (s : State) : State :=
  let p : Pairing := ⟨host.hash code, tenant, s.now + pairTtl⟩
  { s with pairings := deleteWhere (fun p => p.tenant = tenant ∨ p.expires < s.now) s.pairings ++ [p] }

def Valid (now : Time) (codeHash : String) (p : Pairing) : Prop := p.codeHash = codeHash ∧ now < p.expires

instance (now : Time) (codeHash : String) : DecidablePred (Valid now codeHash) :=
  fun _ => inferInstanceAs (Decidable (_ ∧ _))

def completePairing (code token id : String) (s : State) : State :=
  let valid := Valid s.now (host.hash (host.typed code))
  match s.pairings.find? fun p => valid p with
  | none => s
  | some p =>
    -- the keys of the table
    if ∃ d ∈ s.devices, d.id = id ∨ d.tokenHash = host.hash token then s
    else
      { s with
        pairings := deleteWhere valid s.pairings
        devices := s.devices ++ [⟨id, p.tenant, host.hash token, s.now, none⟩] }

/-- `_device`: the request is served if its token is of a device. -/
def authorized (token : String) (call : Client → Call) (s : State) : State :=
  let (found, devices) := deviceForToken s.now (host.hash token) s.devices
  match found with
  | none => s
  | some c => { s with devices, calls := s.calls ++ [call c] }

/-- The devices that `revoke_all` revokes. -/
def Revokes (tenant : String) (spared : List String) (d : Device) : Prop := Paired tenant d ∧ d.id ∉ spared

instance (tenant : String) (spared : List String) : DecidablePred (Revokes tenant spared) :=
  fun _ => inferInstanceAs (Decidable (_ ∧ _))

/-- The jobs that `revoke_all` expires. -/
def Expires (tenant : String) (spared : List String) (j : BridgeJob) : Prop :=
  j.tenant = tenant ∧ Open j ∧ j.id ∉ spared

instance (tenant : String) (spared : List String) : DecidablePred (Expires tenant spared) :=
  fun _ => inferInstanceAs (Decidable (_ ∧ _))

def revokeAll (tenant : String) (spared : List String) (s : State) : State :=
  let devices := s.devices.filter fun d => Revokes tenant spared d
  let jobs := s.jobs.filter fun j => Expires tenant spared j
  { s with
    devices := updateWhere (Revokes tenant spared) (fun d => { d with revoked := some s.now }) s.devices
    jobs := updateWhere (Expires tenant spared) expire s.jobs
    log := s.log ++ (devices.map fun d => .revoked d.id) ++ jobs.map fun j => .expired j.id }

/-- The call goes on, in a state that does not have it any more. -/
def goOn (a : Answer) (s : State) : Call → State
  | .poll token c =>
    match nextJob s.now c.tenant a.locked s.jobs with
    | some j => { s with jobs := claimJob c j.id s.jobs, log := s.log ++ [.handed j.id c.device] }
    | none => if a.late then s else { s with calls := s.calls ++ [.refresh token c] }
  | .refresh token c =>
    -- what `device_for_token` returns is not looked at
    { s with
      devices := (deviceForToken s.now (host.hash token) s.devices).2
      calls := s.calls ++ [.poll token c] }
  | .result c job result =>
    if host.isJson (cut result) ∧ ∃ j ∈ s.jobs, Finishable c job j then
      { s with jobs := finishJob c job result s.jobs, log := s.log ++ [.taken job c.device] }
    else s
  | .create tenant sessionId command =>
    if ∃ j ∈ s.jobs, j.id = a.id then s
    else
      { s with
        jobs := s.jobs ++ [{ id := a.id, tenant, sessionId, command, created := s.now }]
        calls := s.calls ++ [.wait a.id] }
  | .wait job =>
    if a.late then
      { s with
        jobs := expireJob job s.jobs
        log := if ∃ j ∈ s.jobs, j.id = job ∧ Open j then s.log ++ [.expired job] else s.log }
    else if ∃ j ∈ s.jobs, j.id = job ∧ ¬ Open j then s
    else { s with calls := s.calls ++ [.wait job] }

def step (s : State) : Op → State
  | .pass elapsed => { s with now := s.now + elapsed }
  | .startPairing tenant code => startPairing host tenant code s
  | .pair code token id => completePairing host code token id s
  | .poll token => authorized host token (Call.poll token) s
  | .result token job result => authorized host token (Call.result · job result) s
  | .runPcTool tenant sessionId command =>
    if (reachableDevice s.now tenant s.devices).isSome then
      { s with calls := s.calls ++ [.create tenant sessionId command] }
    else s
  | .revokeAll tenant spared => revokeAll tenant spared s
  | .goOn call a =>
    match s.calls[call]? with
    | none => s
    | some c => goOn host a { s with calls := s.calls.eraseIdx call } c
  | .drop call => { s with calls := s.calls.eraseIdx call }

end Smara.Server.Bridge
