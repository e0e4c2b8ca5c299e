import Smara.Lib.Machine
import Smara.Lib.Sealed
import Smara.Server.Schema

/-! # The vault

Each shop has a data key, which is stored under the seal of a master key, and its secrets are stored under the seal
of its data key. A call reads the tables in one statement and writes them in a later one, and what it has written is
seen by others when it commits. Between two statements of a call there may be any of others.

* `KeyRow`, `SecretRow`: the tables.
* `dataKey`, `peek`: what is read of them.
* `Job`, `Op`, `step`: the calls, one statement at a time; the last statement of a transaction is its commit. -/

namespace Smara.Server.Vault

open Lib.Sealed Lib.Table Server.Schema

/-- A master key has the number of its version, and a data key the number under which it was generated. -/
abbrev Key := ℕ

def aad (parts : List String) : String := String.intercalate "|" parts

/-- A row of `tenant_keys`. -/
structure KeyRow where
  tenant : Id
  wrapped : Sealed Key String Key
  version : ℕ
  deriving DecidableEq

abbrev Ciphertext := Sealed Key String String

structure SecretRow where
  tenant : Id
  name : String
  ciphertext : Ciphertext
  deriving DecidableEq

inductive Event
  | put (tenant : Id) (name : String) (ciphertext : Ciphertext)
  | deleted (tenant : Id) (name : String)
  | shredded (tenant : Id)
  /-- what `get_secret` has returned, and how many events there were when it read the row -/
  | got (tenant : Id) (name : String) (readAt : ℕ) (value : Option String)
  /-- the ciphertext could not be decrypted -/
  | failed (tenant : Id) (name : String)
  deriving DecidableEq

/-- What is left to do of a call. -/
inductive Job
  /-- `put_secret` has found no key -/
  | insertKey (tenant : Id) (name value : String)
  /-- another call has inserted the key -/
  | rereadKey (tenant : Id) (name value : String)
  /-- `put_secret` has read the key -/
  | write (tenant : Id) (name value : String) (key : Key)
  /-- `get_secret` has read the row -/
  | readKey (tenant : Id) (name : String) (ciphertext : Ciphertext) (readAt : ℕ)
  /-- `shred_tenant` has deleted the secrets with the names -/
  | shred (tenant : Id) (names : List String)
  /-- the loop of `rewrap_all`: the tenants to come, and the keys that were wrapped anew -/
  | rewrap (version : ℕ) (todo : List Id) (done : List (Id × Key))
  /-- `rewrap_all` has read the key of the tenant -/
  | update (version : ℕ) (tenant : Id) (key : Key) (todo : List Id) (done : List (Id × Key))
  deriving DecidableEq

structure State where
  /-- `VAULT_MASTER_VERSION` -/
  current : ℕ
  /-- the versions of `master_keys` -/
  masters : List ℕ
  keys : List KeyRow := []
  secrets : List SecretRow := []
  /-- the number of data keys that were generated -/
  generated : ℕ := 0
  jobs : List Job := []
  log : List Event := []

inductive Op
  | configure (current : ℕ) (masters : List ℕ)
  | putSecret (tenant : Id) (name value : String)
  | getSecret (tenant : Id) (name : String)
  | deleteSecret (tenant : Id) (name : String)
  | shredTenant (tenant : Id)
  | rewrapAll
  | goOn (job : ℕ)
  /-- the call fails, and its transaction is undone -/
  | drop (job : ℕ)

/-! ### Reading -/

/-- What `_data_key` finds. -/
inductive Found
  | absent
  /-- the master key is not configured -/
  | raises
  | key (k : Key)

def unwrap (masters : List ℕ) (r : KeyRow) : Option Key :=
  if r.version ∈ masters then opened r.version (aad ["tenant-key", r.tenant]) r.wrapped else none

/-- `_data_key`, without `create` -/
def dataKey (s : State) (tenant : Id) : Found :=
  match lookup KeyRow.tenant tenant s.keys with
  | none => .absent
  | some r =>
    match unwrap s.masters r with
    | some k => .key k
    | none => .raises

inductive Reading
  | value (v : Option String)
  /-- the ciphertext cannot be decrypted -/
  | fails
  | raises
  deriving DecidableEq

/-- The last part of `get_secret`. -/
def reading (tenant : Id) (name : String) (c : Ciphertext) : Found → Reading
  | .absent => .value none
  | .raises => .raises
  | .key k =>
    match opened k (aad ["secret", tenant, name]) c with
    | some v => .value (some v)
    | none => .fails

def SecretRow.id (r : SecretRow) : Id × String := (r.tenant, r.name)

/-- What `get_secret` returns if no other call comes between its statements. -/
def peek (s : State) (tenant : Id) (name : String) : Reading :=
  match lookup SecretRow.id (tenant, name) s.secrets with
  | none => .value none
  | some r => reading tenant name r.ciphertext (dataKey s tenant)

/-! ### Writing -/

def forbiddenNames : List String := ["upi_pin", "card", "cvv", "netbanking", "bank_password", "atm_pin"]

/-- `_check_name`; `lower` is `str.lower`. -/
def IsName (lower : String → String) (name : String) : Prop :=
  name ≠ "" ∧ name.length ≤ 100 ∧ ∀ f ∈ forbiddenNames, ¬ f.toList <:+: (lower name).toList

instance (lower : String → String) : DecidablePred (IsName lower) := fun _ => inferInstanceAs (Decidable (_ ∧ _))

def storeSecret (tenant : Id) (name value : String) (key : Key) (s : State) : State :=
  let c : Ciphertext := ⟨key, aad ["secret", tenant, name], value⟩
  { s with
    secrets := upsert SecretRow.id ⟨tenant, name, c⟩ (fun r => { r with ciphertext := c }) s.secrets
    log := s.log ++ [.put tenant name c] }

def wrap (tenant : Id) (key : Key) (version : ℕ) : KeyRow :=
  ⟨tenant, ⟨version, aad ["tenant-key", tenant], key⟩, version⟩

def rewrapped (version : ℕ) (done : List (Id × Key)) (keys : List KeyRow) : List KeyRow :=
  done.foldl (fun keys p => updateWhere (fun r => r.tenant = p.1) (fun r => wrap r.tenant p.2 version) keys) keys

def State.withJob (j : Job) (s : State) : State := { s with jobs := s.jobs ++ [j] }

def State.add (e : Event) (s : State) : State := { s with log := s.log ++ [e] }

/-- The call goes on, in a state that does not have its job any more. -/
def goOn (s : State) : Job → State
  | .insertKey tenant name value =>
    if s.current ∉ s.masters then s
    else
      match lookup KeyRow.tenant tenant s.keys with
      | some _ => s.withJob (.rereadKey tenant name value)
      | none =>
        let key := s.generated
        storeSecret tenant name value key
          { s with keys := s.keys ++ [wrap tenant key s.current], generated := key + 1 }
  | .rereadKey tenant name value =>
    match dataKey s tenant with
    | .key k => s.withJob (.write tenant name value k)
    | _ => s
  | .write tenant name value key => storeSecret tenant name value key s
  | .readKey tenant name c readAt =>
    match reading tenant name c (dataKey s tenant) with
    | .value v => s.add (.got tenant name readAt v)
    | .fails => s.add (.failed tenant name)
    | .raises => s
  | .shred tenant names =>
    { s with
      secrets := deleteWhere (fun r => r.tenant = tenant ∧ r.name ∈ names) s.secrets
      keys := deleteWhere (fun r => r.tenant = tenant) s.keys
      log := s.log ++ [.shredded tenant] }
  | .rewrap version [] done => { s with keys := rewrapped version done s.keys }
  | .rewrap version (tenant :: todo) done =>
    match dataKey s tenant with
    | .key k => s.withJob (.update version tenant k todo done)
    | _ => s
  | .update version tenant key todo done =>
    if ∃ r ∈ s.keys, r.tenant = tenant then s.withJob (.rewrap version todo (done ++ [(tenant, key)]))
    else s.withJob (.rewrap version todo done)

def step (lower : String → String) (s : State) : Op → State
  | .configure current masters => { s with current, masters }
  | .putSecret tenant name value =>
    if ¬ IsName lower name then s
    else
      match dataKey s tenant with
      | .absent => s.withJob (.insertKey tenant name value)
      | .raises => s
      | .key k => s.withJob (.write tenant name value k)
  | .getSecret tenant name =>
    match lookup SecretRow.id (tenant, name) s.secrets with
    | none => s.add (.got tenant name s.log.length none)
    | some r => s.withJob (.readKey tenant name r.ciphertext s.log.length)
  | .deleteSecret tenant name =>
    { s with
      secrets := deleteWhere (fun r => r.id = (tenant, name)) s.secrets
      log := s.log ++ [.deleted tenant name] }
  | .shredTenant tenant =>
    s.withJob (.shred tenant ((s.secrets.filter fun r => r.tenant = tenant).map SecretRow.name))
  | .rewrapAll =>
    if s.current ∉ s.masters then s
    else s.withJob (.rewrap s.current ((s.keys.filter fun r => r.version ≠ s.current).map KeyRow.tenant) [])
  | .goOn job =>
    match s.jobs[job]? with
    | none => s
    | some j => goOn { s with jobs := s.jobs.eraseIdx job } j
  | .drop job => { s with jobs := s.jobs.eraseIdx job }

end Smara.Server.Vault
