import Smara.Lib.Machine
import Smara.Server.Schema

/-! # How a stranger becomes a shop

A stranger who writes a valid invite code is asked for the name of the shop and for a UPI ID, and then the shop is
created: in one transaction a use of the code is taken, in the next the tenant is inserted, and in a third it is
said with which code the tenant has joined. Any message may be between two transactions of another, and any of
them may fail there.

* `Invite`, `Session`, `Tenant`: the tables.
* `Job`, `Op`, `step`: the messages, one transaction at a time. -/

namespace Smara.Server.Onboarding

open Lib.Table
open TaskStore.Schema (Time)

/-! ### Tables -/

/-- A row of `invite_codes`. -/
structure Invite where
  code : String
  maxUses : ℕ
  uses : ℕ := 0
  expires : Option Time := none
  revoked : Option Time := none

/-- Where a new owner is in the chat; the code and the name of the shop are those of the row. -/
inductive Asked
  | shop
  | upi (shopName : String)
  | done
  deriving DecidableEq

/-- A row of `onboarding_sessions`. -/
structure Session where
  phone : String
  asked : Asked
  inviteCode : Option String := none

/-- A row of `tenants`; the ids are given in their order. -/
structure Tenant where
  id : ℕ
  name : String
  ownerPhone : String
  upiVpa : Option String
  joinedWithCode : Option String := none

/-- What is read of a text, and the mode of the sign-up. -/
structure Host where
  /-- `_code_from` -/
  codeFrom : String → Option String
  /-- `re.sub(r"\s+", " ", text).strip()` -/
  squeeze : String → String
  /-- `name.upper().replace(" ", "")` -/
  upper : String → String
  /-- `text.strip().lower()` -/
  lower : String → String
  /-- the text is one of `SKIP` -/
  skips : String → Bool
  /-- `UPI.match(text.strip())` -/
  isUpi : String → Bool
  /-- `signup_mode` is `open` -/
  openSignup : Bool

/-! ### Messages -/

/-- What a message has still to do, up to its next transaction. -/
inductive Job
  /-- `handle_stranger` reads the session -/
  | session (phone text : String)
  /-- `_valid_invite` -/
  | check (phone code : String)
  /-- the chat begins, with a code -/
  | invited (phone code : String)
  /-- the chat begins, in open sign-up -/
  | welcome (phone : String)
  /-- the shop has a name -/
  | named (phone name : String)
  /-- the first transaction of `create_shop` -/
  | take (phone name : String) (upi code : Option String)
  /-- `tenants.create` -/
  | create (phone name : String) (upi code : Option String)
  /-- the last transaction of `create_shop` -/
  | join (id : ℕ) (code : Option String)

structure State where
  now : Time := 0
  invites : List Invite := []
  sessions : List Session := []
  tenants : List Tenant := []
  jobs : List Job := []

inductive Op
  | pass (elapsed : ℕ)
  /-- the scripts of the operator -/
  | createInvite (code : String) (maxUses : ℕ) (expires : Option Time)
  | revokeInvite (code : String)
  /-- a message from a number that is not the owner of a shop -/
  | stranger (phone text : String)
  | goOn (job : ℕ)
  /-- the message fails before its next transaction -/
  | fail (job : ℕ)

variable (host : Host)

/-- The code has a use left. -/
def Valid (now : Time) (code : String) (i : Invite) : Prop :=
  i.code = code ∧ i.revoked = none ∧ i.uses < i.maxUses ∧ ∀ e ∈ i.expires, now < e

instance (now : Time) (code : String) : DecidablePred (Valid now code) :=
  fun _ => inferInstanceAs (Decidable (_ ∧ _))

/-- `INSERT INTO onboarding_sessions … ON CONFLICT (phone) DO UPDATE` -/
def ask (phone : String) (code : Option String) (sessions : List Session) : List Session :=
  upsert Session.phone ⟨phone, .shop, code⟩ (fun r => { r with asked := .shop, inviteCode := code.or r.inviteCode })
    sessions

def setAsked (phone : String) (asked : Asked) (sessions : List Session) : List Session :=
  updateWhere (fun r => r.phone = phone) (fun r => { r with asked }) sessions

def IsName (name : String) : Prop :=
  2 ≤ name.length ∧ name.length ≤ 60 ∧ ¬ ∃ code ∈ host.codeFrom name, host.upper name = code

instance : DecidablePred (IsName host) := fun _ => inferInstanceAs (Decidable (_ ∧ _))

/-- What is left of a message after its session was read. -/
def answer (phone text : String) (session : Option Session) : Option Job :=
  match session with
  | some ⟨_, .shop, _⟩ =>
    let name := host.squeeze text
    if IsName host name then some (.named phone name) else none
  | some ⟨_, .upi shopName, code⟩ =>
    if host.skips (host.lower text) then some (.take phone shopName none code)
    else if host.isUpi text then some (.take phone shopName (some (host.lower text)) code)
    else none
  | _ =>
    match host.codeFrom text with
    | some code => some (.check phone code)
    | none => if host.openSignup then some (.welcome phone) else none

/-- `tenants.create`: `ON CONFLICT (owner_phone) DO UPDATE`, with the id of the row. -/
def createTenant (phone name : String) (upi : Option String) (tenants : List Tenant) : ℕ × List Tenant :=
  let id := ((lookup Tenant.ownerPhone phone tenants).map Tenant.id).getD tenants.length
  (id, upsert Tenant.ownerPhone ⟨id, name, phone, upi, none⟩ (fun r => { r with name, upiVpa := upi }) tenants)

def State.withJob (j : Option Job) (s : State) : State := { s with jobs := s.jobs ++ j.toList }

/-- The message goes on, in a state that does not have its job any more. -/
def goOn (s : State) : Job → State
  | .session phone text => s.withJob (answer host phone text (lookup Session.phone phone s.sessions))
  | .check phone code =>
    if ∃ i ∈ s.invites, Valid s.now code i then s.withJob (some (.invited phone code))
    else s.withJob (if host.openSignup then some (.welcome phone) else none)
  | .invited phone code => { s with sessions := ask phone (some code) s.sessions }
  | .welcome phone => { s with sessions := ask phone none s.sessions }
  | .named phone name => { s with sessions := setAsked phone (.upi name) s.sessions }
  | .take phone name upi code =>
    let done := { s with sessions := setAsked phone .done s.sessions }
    match code with
    | none => done.withJob (some (.create phone name upi none))
    | some code =>
      if ∃ i ∈ s.invites, Valid s.now code i then
        { done with
          invites := updateWhere (Valid s.now code) (fun i => { i with uses := i.uses + 1 }) s.invites
          jobs := s.jobs ++ [.create phone name upi (some code)] }
      else done
  | .create phone name upi code =>
    let (id, tenants) := createTenant phone name upi s.tenants
    { s with tenants, jobs := s.jobs ++ [.join id code] }
  | .join id code =>
    { s with tenants := updateWhere (fun r => r.id = id) (fun r => { r with joinedWithCode := code }) s.tenants }

/-- **A step.** -/
def step (s : State) : Op → State
  | .pass elapsed => { s with now := s.now + elapsed }
  | .createInvite code maxUses expires =>
    if ∃ i ∈ s.invites, i.code = code then s
    else { s with invites := s.invites ++ [{ code, maxUses, expires }] }
  | .revokeInvite code =>
    { s with invites := updateWhere (fun i => i.code = code) (fun i => { i with revoked := some s.now }) s.invites }
  | .stranger phone text =>
    if ∃ t ∈ s.tenants, t.ownerPhone = phone then s else s.withJob (some (.session phone text))
  | .goOn job =>
    match s.jobs[job]? with
    | none => s
    | some j => goOn host { s with jobs := s.jobs.eraseIdx job } j
  | .fail job => { s with jobs := s.jobs.eraseIdx job }

/-! ### Accounts -/

def Job.holds : Job → Option String
  | .create _ _ _ code | .join _ code => code
  | _ => none

def State.uses (s : State) (code : String) : ℕ := ((lookup Invite.code code s.invites).map Invite.uses).getD 0

def State.joined (s : State) : List String := s.tenants.filterMap Tenant.joinedWithCode

def State.held (s : State) : List String := s.jobs.filterMap Job.holds

/-- What a step loses: the use that a message has taken before it fails, or the code with which a tenant has joined
before it joins once more. -/
def lost (s : State) : Op → Option String
  | .fail job => s.jobs[job]?.bind Job.holds
  | .goOn job =>
    match s.jobs[job]? with
    | some (.join id _) => (lookup Tenant.id id s.tenants).bind Tenant.joinedWithCode
    | _ => none
  | _ => none

end Smara.Server.Onboarding
