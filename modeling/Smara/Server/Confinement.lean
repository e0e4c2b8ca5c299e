import Smara.Server.Amounts
import Smara.Server.Policy
import Smara.Server.Ticks

/-! # Sessions that are not trusted

A message of a debtor starts a session whose model may have been talked into anything: it may call any tool with any
arguments. The calls are processed one after the other, until one waits for the owner.

* `process`: the calls of a session, with executors of the other tools that may do anything.
* `Confined`: what the calls of an untrusted session leave (`confined_process`).
* `untrusted_confined`: over a run of such calls and of the owner's decisions, obligations change by the decisions
  only. -/

namespace Smara.Server.Confinement

open Lib.Machine Lib.Table
open Server.Schema Server.Ledger Server.Proposals Server.Amounts Server.Policy
open Server.Channel (Reach Answer sendToOwner rows_sendToOwner)
open Server.Ticks (SessionStatus Closed)
open TaskStore.Schema (Time)

/-! ### The world of a call -/

/-- A call of the model; arguments that are no JSON are `null`, as `json.loads` gives no object for either. -/
structure ToolCall where
  id : String
  name : String
  args : Json

structure PendingCall where
  callId : String
  name : String
  args : Json
  adjustmentId : Option Id
  remaining : List ToolCall

structure SessionRow where
  id : Id
  status : SessionStatus
  pending : Option PendingCall := none

structure World where
  db : Db := {}
  sessions : List SessionRow := []
  /-- `owner_nudged_at` of the tenant -/
  nudgedAt : Option Time := none
  /-- the numbers to which something was sent -/
  sent : List String := []

/-- What is answered while a call is processed. -/
structure Answers where
  today : Day := 0
  now : Time := 0
  /-- the id of a new adjustment -/
  adjustmentId : Id := ""
  queues : Bool := true
  submits : Bool := true
  notifies : Bool := true
  reach : Reach := {}
  uuid : String := ""
  send : Answer := {}
  saves : Bool := true

/-- What the session runs in. The tools that are not modelled may do anything. -/
structure Env where
  rules : Rules
  ownerPhone : String
  /-- the id that a text stands for -/
  castId : String → Option Id
  castId_empty : castId "" = none
  castId_none : castId "None" = none
  sha256 : String → String
  /-- `str` of an array or an object -/
  repr : Json → String
  parseFloat : String → Number
  isoDate : String → Option Day
  exec : Ctx → ToolCall → World → World
  gate : Ctx → ToolCall → World → Except World (World × Bool)

/-! ### Arguments of a proposal -/

/-- `str` -/
def toStr (env : Env) : Json → String
  | .null => "None"
  | .bool b => if b then "True" else "False"
  | .num _ text => text
  | .nonfinite text => text
  | .str s => s
  | .arr items => env.repr (.arr items)
  | .obj members => env.repr (.obj members)

def truthy : Json → Bool
  | .null => false
  | .bool b => b
  | .num q _ => q ≠ 0
  | .nonfinite _ => true
  | .str s => s ≠ ""
  | .arr items => !items.isEmpty
  | .obj members => !members.isEmpty

/-- `float` -/
def toNumber (env : Env) : Json → Number
  | .bool b => .rational (if b then 1 else 0)
  | .num q _ => if |q| < 2 ^ 1024 then .rational q else .huge
  | .nonfinite _ => .nan
  | .str s => env.parseFloat s
  | _ => .bad

/-- The argument is there, and is not `null`. -/
def given (key : String) (args : Json) : Option Json :=
  match args.get? key with
  | some .null => none
  | v => v

def kindOf : Option Json → Option AdjustmentType
  | some (.str "DISCOUNT_CLAIM") => some .discountClaim
  | some (.str "PARTIAL_PAYMENT") => some .partialPayment
  | some (.str "PROMISE_DATE_CHANGE") => some .promiseDateChange
  | some (.str "UTR_PROOF") => some .utrProof
  | _ => none

/-- `date.fromisoformat`, if the argument is truthy. -/
def dateOf (env : Env) (v : Json) : Option DateText :=
  if truthy v then
    match v with
    | .str s => some (((env.isoDate s).map DateText.date).getD .malformed)
    | _ => some .bad
  else none

/-- The arguments of `propose_ledger_adjustment`. -/
def proposalArgs (env : Env) (args : Json) : Args where
  obligationId := toStr env ((args.get? "obligation_id").getD .null)
  kind := kindOf (args.get? "kind")
  paidRupees := (given "paid_rupees" args).map (toNumber env)
  discountPercent := (given "discount_percent" args).map (toNumber env)
  newAmountRupees := (given "new_amount_rupees" args).map (toNumber env)
  newDueDate := (args.get? "new_due_date").bind (dateOf env)
  evidence := (((args.get? "evidence").filter truthy).map (toStr env)).getD ""

/-! ### Tools -/

def partyInTenant (env : Env) (tenantId : Id) (party : String) (db : Db) : Bool :=
  match env.castId party with
  | none => false
  | some id => db.parties.any fun p => p.id = id ∧ p.tenantId = tenantId

def memoryScope (env : Env) (tenantId : Id) (party : String) (db : Db) : Option String :=
  if party = "shop" then some (scopeUser tenantId "shop")
  else if partyInTenant env tenantId party db then some (scopeUser tenantId party)
  else none

/-- The source id of an evidence, in the letters that are allowed. -/
def evidenceId (ctx : Ctx) : String :=
  let plain (c : Char) : Char := if c.isAlphanum ∨ c ∈ ['.', '_', ':', '-'] then c else '-'
  ((("agent_" ++ ctx.id ++ "_" ++ ctx.callId).map plain).take 200).toString

def writeContinuumEvidence (env : Env) (ctx : Ctx) (args : Json) (a : Answers) (w : World) : World :=
  match memoryScope env ctx.tenantId (toStr env ((args.get? "party_id").getD (.str ""))) w.db with
  | none => w
  | some scope =>
    let text := ((env.rules.strip (toStr env ((args.get? "text").getD (.str "")))).take 4000).toString
    if text = "" ∨ a.queues = false then w
    else { w with db := enqueue a.now scope (evidenceId ctx) text (ctx.trust ≠ .untrusted) none w.db }

/-- `make_source_id` of a call of the session. -/
def sourceId (env : Env) (ctx : Ctx) (callId evidence : String) : String :=
  "wa_" ++ ((env.sha256 (ctx.tenantId ++ "|agent-" ++ ctx.id ++ "-" ++ callId ++ "|" ++ evidence)).take 40).toString

def reaches (r : Reach) : Bool := !r.quiet && (!decide (Closed r) || !r.nudged)

/-- `owner_approval_card` -/
def approvalCard (env : Env) (ctx : Ctx) (adjustmentId : Option Id) : OutboundMessage :=
  { msgId := "", tenantId := ctx.tenantId, kind := .ownerClaimCard, toPhone := env.ownerPhone, adjustmentId }

def showCard (env : Env) (ctx : Ctx) (source : String) (a : Answers) (w : World) : Except World (World × Option Id) :=
  let adjustmentId := (w.db.adjustments.find? fun b => b.continuumSourceId = source).map Adjustment.id
  let r := sendToOwner a.reach none (approvalCard env ctx adjustmentId) a.uuid a.send w.db.outbound
  let w := { w with
    db := { w.db with outbound := r.rows }
    nudgedAt := if Closed a.reach ∧ !a.reach.quiet ∧ !a.reach.nudged then some a.now else w.nudgedAt
    sent := if reaches a.reach then w.sent ++ [env.ownerPhone] else w.sent }
  if r.raised then .error w else .ok (w, adjustmentId)

def evidenceOf (card : String) (p : Proposal) : String :=
  ((if p.evidence = "" then card else p.evidence).take 2000).toString

/-- **`open_gate`** of a proposal, with the id of the adjustment. -/
def openGate (env : Env) (ctx : Ctx) (card : String) (a : Answers) (p : Proposal) (w : World) :
    Except World (World × Option Id) :=
  match obligationOf ctx.tenantId p.obligationId w.db with
  | none => .error w
  | some o =>
    let evidence := evidenceOf card p
    let source := sourceId env ctx ctx.callId evidence
    let db := submitDebtorClaim ctx.tenantId o.partyId o.id source p.kind evidence p.paise p.newDueDate a.adjustmentId
      a.now w.db
    if a.submits = false then .error w
    else if a.notifies = false then .error { w with db }
    else showCard env ctx source a { w with db := notified source a.now db }

/-- `_save` of a session that waits. -/
def save (ctx : Ctx) (pending : PendingCall) (w : World) : World :=
  let waits (s : SessionRow) : SessionRow := { s with status := .waitingApproval, pending := some pending }
  { w with sessions := updateWhere (fun s => s.id = ctx.id) waits w.sessions }

/-- A call that the owner must approve; it says whether the session waits. -/
def propose (env : Env) (ctx : Ctx) (c : ToolCall) (rest : List ToolCall) (a : Answers) (w : World) :
    Except World (World × Bool) :=
  match validateGated ctx.toSessionCtx a.today (proposalArgs env c.args) w.db with
  | .error .raised => .error w
  | .error (.refused _) => .ok (w, false)
  | .ok p =>
    match openGate env ctx (env.rules.approvalText c.name c.args) a p w with
    | .error w => .error w
    | .ok (w, adjustmentId) =>
      let pending : PendingCall := { callId := c.id, name := c.name, args := c.args, adjustmentId, remaining := rest }
      if a.saves then .ok (save ctx pending w, true) else .error w

/-- The turn of a call in `_process`. -/
def handle (env : Env) (ctx : Ctx) (c : ToolCall) (rest : List ToolCall) (a : Answers) (w : World) :
    Except World (World × Bool) :=
  let ctx := { ctx with callId := c.id }
  match preToolUse env.rules ctx c.name c.args with
  | none => .error w
  | some d =>
    match d.verdict with
    | .deny => .ok (w, false)
    | .allow =>
      if c.name = "write_continuum_evidence" then .ok (writeContinuumEvidence env ctx c.args a w, false)
      else .ok (env.exec ctx c w, false)
    | .approve =>
      if c.name = "propose_ledger_adjustment" then propose env ctx c rest a w else env.gate ctx c w

/-- **`_process`**, and the world that it leaves when it returns or raises. -/
def process (env : Env) (ctx : Ctx) : List (ToolCall × Answers) → World → World
  | [], w => w
  | (c, a) :: calls, w =>
    match handle env ctx c (calls.map Prod.fst) a w with
    | .error w => w
    | .ok (w, true) => w
    | .ok (w, false) => process env ctx calls w

/-! ### What the calls of an untrusted session leave -/

def Own (ctx : Ctx) (db : Db) (a : Adjustment) : Prop :=
  ∃ o ∈ db.obligations, o.id = a.obligationId ∧ o.tenantId = ctx.tenantId ∧ some o.partyId = ctx.partyId

def OwnEvidence (ctx : Ctx) (r : OutboxRow) : Prop :=
  r.trusted = false ∧ ∃ p ∈ ctx.partyId, r.userId = scopeUser ctx.tenantId p

/-- The owner was told of the adjustment again; its source id is that of a call of the session. -/
def Renotified (env : Env) (ctx : Ctx) (a a' : Adjustment) : Prop :=
  (∃ callId evidence, a.continuumSourceId = sourceId env ctx callId evidence) ∧
    ∃ t, a' = { a with ownerNotifiedAt := some t }

/-- **What is written**: evidence, pending adjustments of the own party, the time at which the owner was told of an
adjustment of the session, and what is kept of the card that the owner was shown; and nothing is sent but to the
owner. -/
structure Confined (env : Env) (ctx : Ctx) (w w' : World) : Prop where
  obligations : w'.db.obligations = w.db.obligations
  events : w'.db.events = w.db.events
  parties : w'.db.parties = w.db.parties
  outbox : ∃ new, w'.db.outbox = w.db.outbox ++ new ∧ ∀ r ∈ new, OwnEvidence ctx r
  adjustments : ∃ f new, w'.db.adjustments = w.db.adjustments.map f ++ new ∧
    (∀ a ∈ w.db.adjustments, f a = a ∨ Renotified env ctx a (f a)) ∧
      ∀ a ∈ new, a.status = .pending ∧ Own ctx w.db a
  outbound : ∃ new, w'.db.outbound = w.db.outbound ++ new ∧
    ∀ m ∈ new, m.tenantId = ctx.tenantId ∧ m.toPhone = env.ownerPhone
  sessions : w'.sessions.filter (fun s => s.id ≠ ctx.id) = w.sessions.filter fun s => s.id ≠ ctx.id
  sent : ∃ new, w'.sent = w.sent ++ new ∧ ∀ phone ∈ new, phone = env.ownerPhone

section

variable {env : Env} {ctx : Ctx} {w w' w'' : World}

theorem confined_refl (env : Env) (ctx : Ctx) (w : World) : Confined env ctx w w where
  obligations := rfl
  events := rfl
  parties := rfl
  outbox := ⟨[], by simp⟩
  adjustments := ⟨id, [], by simp⟩
  outbound := ⟨[], by simp⟩
  sessions := rfl
  sent := ⟨[], by simp⟩

theorem append_trans {α : Type*} {P : α → Prop} {l l' l'' : List α} (h : ∃ new, l' = l ++ new ∧ ∀ a ∈ new, P a)
    (h' : ∃ new, l'' = l' ++ new ∧ ∀ a ∈ new, P a) : ∃ new, l'' = l ++ new ∧ ∀ a ∈ new, P a := by
  obtain ⟨new, rfl, hnew⟩ := h
  obtain ⟨new', rfl, hnew'⟩ := h'
  refine ⟨new ++ new', by rw [List.append_assoc], fun a ha => ?_⟩
  rcases List.mem_append.mp ha with ha | ha
  · exact hnew a ha
  · exact hnew' a ha

theorem renotified_trans {a a' a'' : Adjustment} (h : a' = a ∨ Renotified env ctx a a')
    (h' : a'' = a' ∨ Renotified env ctx a' a'') : a'' = a ∨ Renotified env ctx a a'' := by
  rcases h with rfl | ⟨hs, t, rfl⟩
  · exact h'
  · right
    rcases h' with rfl | ⟨-, t', rfl⟩
    · exact ⟨hs, t, rfl⟩
    · exact ⟨hs, t', rfl⟩

theorem confined_trans (h : Confined env ctx w w') (h' : Confined env ctx w' w'') : Confined env ctx w w'' where
  obligations := h'.obligations.trans h.obligations
  events := h'.events.trans h.events
  parties := h'.parties.trans h.parties
  outbox := append_trans h.outbox h'.outbox
  adjustments := by
    obtain ⟨f, new, heq, hf, hnew⟩ := h.adjustments
    obtain ⟨g, new', heq', hg, hnew'⟩ := h'.adjustments
    rw [heq] at heq' hg
    refine ⟨g ∘ f, new.map g ++ new', by simp [heq'], fun a ha => ?_, fun a ha => ?_⟩
    · exact renotified_trans (hf a ha) (hg (f a) (List.mem_append_left _ (List.mem_map_of_mem ha)))
    · rcases List.mem_append.mp ha with ha | ha
      · obtain ⟨b, hb, rfl⟩ := List.mem_map.mp ha
        rcases hg b (List.mem_append_right _ hb) with heq | ⟨-, t, heq⟩
        · rw [heq]
          exact hnew b hb
        · rw [heq]
          exact hnew b hb
      · obtain ⟨hstatus, hown⟩ := hnew' a ha
        unfold Own at hown
        rw [h.obligations] at hown
        exact ⟨hstatus, hown⟩
  outbound := append_trans h.outbound h'.outbound
  sessions := h'.sessions.trans h.sessions
  sent := append_trans h.sent h'.sent

theorem confined_of_callId (callId : String) (h : Confined env { ctx with callId } w w') : Confined env ctx w w' :=
  ⟨h.obligations, h.events, h.parties, h.outbox, h.adjustments, h.outbound, h.sessions, h.sent⟩

theorem outbox_enqueue (now : Time) (userId sourceId text : String) (stamp : Option Id) (db : Db) :
    ∃ new, (enqueue now userId sourceId text false stamp db).outbox = db.outbox ++ new ∧
      ∀ r ∈ new, r.trusted = false ∧ r.userId = userId := by
  unfold enqueue
  split_ifs
  · exact ⟨[], by simp⟩
  · exact ⟨_, rfl, by simp⟩

theorem confined_enqueue {p : Id} (hp : ctx.partyId = some p) (now : Time) (sourceId text : String) (stamp : Option Id) :
    Confined env ctx w
      { w with db := enqueue now (scopeUser ctx.tenantId p) sourceId text false stamp w.db } := by
  have hother : ∀ userId, (enqueue now userId sourceId text false stamp w.db).obligations = w.db.obligations ∧
      (enqueue now userId sourceId text false stamp w.db).events = w.db.events ∧
      (enqueue now userId sourceId text false stamp w.db).parties = w.db.parties ∧
      (enqueue now userId sourceId text false stamp w.db).adjustments = w.db.adjustments ∧
      (enqueue now userId sourceId text false stamp w.db).outbound = w.db.outbound := by
    intro userId
    unfold enqueue
    split_ifs <;> exact ⟨rfl, rfl, rfl, rfl, rfl⟩
  obtain ⟨ho, he, hpa, ha, hm⟩ := hother (scopeUser ctx.tenantId p)
  obtain ⟨new, hnew, hrows⟩ := outbox_enqueue now (scopeUser ctx.tenantId p) sourceId text stamp w.db
  refine ⟨ho, he, hpa, ⟨new, hnew, fun r hr => ⟨(hrows r hr).1, p, hp, (hrows r hr).2⟩⟩, ⟨id, [], ?_⟩, ⟨[], ?_⟩, rfl,
    ⟨[], by simp⟩⟩
  · simp [ha]
  · simp [hm]

theorem scope_own {args : Json} (hown : ownParty ctx args = true) {db : Db} {scope : String}
    (h : memoryScope env ctx.tenantId (toStr env ((args.get? "party_id").getD (.str ""))) db = some scope) :
    ∃ p, ctx.partyId = some p ∧ scope = scopeUser ctx.tenantId p := by
  have hscope : ∀ party, memoryScope env ctx.tenantId party db = some scope →
      scope = scopeUser ctx.tenantId party ∧ (party = "shop" ∨ env.castId party ≠ none) := by
    intro party hparty
    unfold memoryScope partyInTenant at hparty
    split_ifs at hparty with hshop hin
    · cases hparty
      exact ⟨by rw [hshop], Or.inl hshop⟩
    · cases hparty
      refine ⟨rfl, Or.inr fun hnone => ?_⟩
      simp [hnone] at hin
  obtain ⟨heq, hcast⟩ := hscope _ h
  unfold ownParty at hown
  split at hown
  · rename_i hget
    simp [hget, toStr, env.castId_empty] at hcast
  · rename_i hget hparty
    simp [hget, toStr, env.castId_none] at hcast
  · rename_i p q hget hparty
    refine ⟨q, hparty, ?_⟩
    have hpq : p = q := by simpa using hown
    rw [heq, hget]
    simp [toStr, hpq]
  · cases hown

theorem confined_evidence {args : Json} {a : Answers} (h : ctx.trust = .untrusted) (hown : ownParty ctx args = true) :
    Confined env ctx w (writeContinuumEvidence env ctx args a w) := by
  unfold writeContinuumEvidence
  cases hscope : memoryScope env ctx.tenantId (toStr env ((args.get? "party_id").getD (.str ""))) w.db with
  | none => exact confined_refl env ctx w
  | some scope =>
    obtain ⟨p, hp, rfl⟩ := scope_own hown hscope
    simp only
    split_ifs
    · exact confined_refl env ctx w
    · have htrusted : decide (ctx.trust ≠ .untrusted) = false := by simp [h]
      rw [htrusted]
      exact confined_enqueue hp a.now _ _ none

theorem confined_submit {o : Obligation} (ho : o ∈ w.db.obligations) (htenant : o.tenantId = ctx.tenantId)
    (hparty : ctx.partyId = some o.partyId) (source : String) (kind : AdjustmentType) (evidence : String)
    (amount : Option ℤ) (date : Option Day) (adjustmentId : Id) (now : Time) :
    Confined env ctx w { w with
      db := submitDebtorClaim ctx.tenantId o.partyId o.id source kind evidence amount date adjustmentId now w.db } := by
  have hevidence : Confined env ctx w { w with
    db := enqueue now (scopeUser ctx.tenantId o.partyId) source evidence false none w.db } :=
    confined_enqueue hparty now source evidence none
  unfold submitDebtorClaim
  split_ifs with hbad
  · exact confined_refl env ctx w
  dsimp only
  split_ifs with hold
  · exact hevidence
  · refine confined_trans hevidence ⟨rfl, rfl, rfl, ⟨[], by simp⟩, ⟨id, _, by rw [List.map_id], by simp, ?_⟩,
      ⟨[], by simp⟩, rfl, ⟨[], by simp⟩⟩
    intro a ha
    rw [List.mem_singleton.mp ha]
    refine ⟨rfl, o, ?_, rfl, htenant, hparty.symm⟩
    rw [hevidence.obligations]
    exact ho

theorem confined_notified (callId evidence : String) (now : Time) :
    Confined env ctx w { w with db := notified (sourceId env ctx callId evidence) now w.db } := by
  refine ⟨rfl, rfl, rfl, ⟨[], by simp [notified]⟩, ⟨_, [], (List.append_nil _).symm, fun a _ => ?_, by simp⟩,
    ⟨[], by simp [notified]⟩, rfl, ⟨[], by simp⟩⟩
  split_ifs with hsource
  · exact Or.inr ⟨⟨callId, evidence, hsource⟩, now, rfl⟩
  · exact Or.inl rfl

/-- The world that a step leaves when it returns or raises. -/
def worldOf {α : Type} : Except World (World × α) → World
  | .error w => w
  | .ok (w, _) => w

theorem confined_showCard (source : String) (a : Answers) :
    Confined env ctx w (worldOf (showCard env ctx source a w)) := by
  unfold showCard
  dsimp only
  generalize (w.db.adjustments.find? fun b => b.continuumSourceId = source).map Adjustment.id = adjustmentId
  have hrows := rows_sendToOwner a.reach none (approvalCard env ctx adjustmentId) a.uuid a.send w.db.outbound
  generalize sendToOwner a.reach none (approvalCard env ctx adjustmentId) a.uuid a.send w.db.outbound = r at hrows ⊢
  have hsent : ∃ new, (if reaches a.reach then w.sent ++ [env.ownerPhone] else w.sent) = w.sent ++ new ∧
      ∀ phone ∈ new, phone = env.ownerPhone := by
    split_ifs
    · exact ⟨[env.ownerPhone], rfl, by simp⟩
    · exact ⟨[], by simp⟩
  have hsame : ∃ f new, w.db.adjustments = w.db.adjustments.map f ++ new ∧
      (∀ b ∈ w.db.adjustments, f b = b ∨ Renotified env ctx b (f b)) ∧
        ∀ b ∈ new, b.status = .pending ∧ Own ctx w.db b := ⟨id, [], by simp⟩
  cases r.raised with
  | true => exact ⟨rfl, rfl, rfl, ⟨[], by simp [worldOf]⟩, hsame, hrows, rfl, hsent⟩
  | false => exact ⟨rfl, rfl, rfl, ⟨[], by simp [worldOf]⟩, hsame, hrows, rfl, hsent⟩

theorem confined_openGate {p : Proposal} (hown : ∃ o, obligationOf ctx.tenantId p.obligationId w.db = some o ∧
    ctx.partyId = some o.partyId) (card : String) (a : Answers) :
    Confined env ctx w (worldOf (openGate env ctx card a p w)) := by
  obtain ⟨o, ho, hparty⟩ := hown
  obtain ⟨hlookup, htenant⟩ := obligationOf_eq_some.mp ho
  have hmem : o ∈ w.db.obligations := mem_of_lookup hlookup
  unfold openGate
  rw [ho]
  dsimp only
  have hsubmit : ∀ source, Confined env ctx w { w with
      db := submitDebtorClaim ctx.tenantId o.partyId o.id source p.kind (evidenceOf card p) p.paise p.newDueDate
        a.adjustmentId a.now w.db } := fun source => confined_submit hmem htenant hparty source _ _ _ _ _ _
  split_ifs
  · exact confined_refl env ctx w
  · exact hsubmit _
  · exact confined_trans (hsubmit _) (confined_trans (confined_notified _ _ _) (confined_showCard _ a))

theorem confined_save (pending : PendingCall) : Confined env ctx w (save ctx pending w) := by
  refine ⟨rfl, rfl, rfl, ⟨[], by simp [save]⟩, ⟨id, [], by simp [save]⟩, ⟨[], by simp [save]⟩, ?_, ⟨[], by simp [save]⟩⟩
  have hnone : ∀ s ∈ w.sessions.filter fun s => s.id ≠ ctx.id, ¬ s.id = ctx.id := by
    intro s hs
    simpa using (List.mem_filter.mp hs).2
  refine (filter_updateWhere ?_).trans (updateWhere_eq_self hnone)
  intro s _
  exact Iff.rfl

theorem own_of_validateGated {today : Day} {args : Args} {p : Proposal} (h : ctx.trust = .untrusted)
    (hp : validateGated ctx.toSessionCtx today args w.db = .ok p) :
    ∃ o, obligationOf ctx.tenantId p.obligationId w.db = some o ∧ ctx.partyId = some o.partyId := by
  obtain ⟨o, args', ho, -, -, -, hcheck⟩ := validateGated_eq_ok hp
  obtain ⟨-, hid, -, hparty⟩ := checkProposal_eq_ok hcheck
  obtain ⟨hlookup, htenant⟩ := obligationOf_eq_some.mp ho
  refine ⟨o, ?_, (hparty h).symm⟩
  have hargs : o.id = args.obligationId := key_of_lookup hlookup
  rw [hid, hargs]
  exact ho

theorem confined_propose {c : ToolCall} {rest : List ToolCall} {a : Answers} (h : ctx.trust = .untrusted) :
    Confined env ctx w (worldOf (propose env ctx c rest a w)) := by
  unfold propose
  cases hp : validateGated ctx.toSessionCtx a.today (proposalArgs env c.args) w.db with
  | error e =>
    cases e with
    | refused r => exact confined_refl env ctx w
    | raised => exact confined_refl env ctx w
  | ok p =>
    have hopen : Confined env ctx w (worldOf (openGate env ctx (env.rules.approvalText c.name c.args) a p w)) :=
      confined_openGate (own_of_validateGated h hp) _ a
    simp only
    cases hgate : openGate env ctx (env.rules.approvalText c.name c.args) a p w with
    | error w₁ =>
      rw [hgate] at hopen
      exact hopen
    | ok r =>
      obtain ⟨w₁, adjustmentId⟩ := r
      rw [hgate] at hopen
      simp only
      split_ifs
      · exact confined_trans hopen (confined_save _)
      · exact hopen

theorem confined_handle (c : ToolCall) (rest : List ToolCall) (a : Answers) (h : ctx.trust = .untrusted) :
    Confined env ctx w (worldOf (handle env ctx c rest a w)) := by
  refine confined_of_callId c.id ?_
  have h : ({ ctx with callId := c.id } : Ctx).trust = .untrusted := h
  unfold handle
  generalize ({ ctx with callId := c.id } : Ctx) = ctx at h ⊢
  dsimp only
  cases hd : preToolUse env.rules ctx c.name c.args with
  | none => exact confined_refl env ctx w
  | some d =>
    dsimp only
    rcases untrusted_verdict h hd with hdeny | ⟨hown, ⟨hname, hallow⟩ | ⟨hname, happrove⟩⟩
    · simp only [hdeny]
      exact confined_refl env ctx w
    · simp only [hallow, hname, if_true]
      exact confined_evidence h hown
    · simp only [happrove, hname, if_true]
      exact confined_propose h

/-- **The calls of an untrusted session are confined**, whatever they are, and also where they raise. -/
theorem confined_process (h : ctx.trust = .untrusted) (calls : List (ToolCall × Answers)) :
    Confined env ctx w (process env ctx calls w) := by
  induction calls generalizing w with
  | nil => exact confined_refl env ctx w
  | cons call calls ih =>
    obtain ⟨c, a⟩ := call
    have hhandle : Confined env ctx w (worldOf (handle env ctx c (calls.map Prod.fst) a w)) :=
      confined_handle c _ a h
    unfold process
    cases hturn : handle env ctx c (calls.map Prod.fst) a w with
    | error w₁ =>
      rw [hturn] at hhandle
      exact hhandle
    | ok r =>
      obtain ⟨w₁, suspended⟩ := r
      rw [hturn] at hhandle
      cases suspended with
      | true => exact hhandle
      | false => exact confined_trans hhandle ih

end

/-! ### The owner's decisions -/

/-- What happens to a session: calls are processed, and the owner decides an adjustment. A tap that resumes the
session runs none of its calls but those that are processed. -/
inductive Action
  | process (calls : List (ToolCall × Answers))
  | decide (adjustmentId : Id) (approve : Bool) (now : Time)

def step (env : Env) (ctx : Ctx) (w : World) : Action → World
  | .process calls => process env ctx calls w
  | .decide adjustmentId approve now =>
    { w with db := decideAdjustment ctx.tenantId adjustmentId approve now w.db }

/-- The step changes obligations by an approval of a pending adjustment only, of the own party or one that was there at
the start, and no other obligation than that of the adjustment. -/
def ByOwner (ctx : Ctx) (start w w' : World) (c : Action) : Prop :=
  w'.db.obligations = w.db.obligations ∨
    ∃ a ∈ w.db.adjustments, a.status = .pending ∧ (∃ now, c = .decide a.id true now) ∧
      (Own ctx w.db a ∨ ∃ a₀ ∈ start.db.adjustments, a₀.id = a.id) ∧
        ∀ o ∈ w.db.obligations, o.id ≠ a.obligationId → o ∈ w'.db.obligations

def Known (ctx : Ctx) (start w : World) : Prop :=
  ∀ a ∈ w.db.adjustments, Own ctx w.db a ∨ ∃ a₀ ∈ start.db.adjustments, a₀.id = a.id

section

variable {env : Env} {ctx : Ctx} {start w w' : World}

theorem known_of_kept (h : Known ctx start w)
    (hobligations : ∀ o ∈ w.db.obligations, ∃ o' ∈ w'.db.obligations,
      o'.id = o.id ∧ o'.tenantId = o.tenantId ∧ o'.partyId = o.partyId)
    (hadjustments : ∀ a' ∈ w'.db.adjustments, Own ctx w'.db a' ∨
      ∃ a ∈ w.db.adjustments, a.id = a'.id ∧ a.obligationId = a'.obligationId) : Known ctx start w' := by
  intro a' ha'
  rcases hadjustments a' ha' with hown | ⟨a, ha, hid, hobligation⟩
  · exact Or.inl hown
  · rcases h a ha with ⟨o, ho, hoid, htenant, hparty⟩ | ⟨a₀, ha₀, hid₀⟩
    · obtain ⟨o', ho', hid', htenant', hparty'⟩ := hobligations o ho
      left
      exact ⟨o', ho', hid'.trans (hoid.trans hobligation), htenant'.trans htenant, by rw [hparty', hparty]⟩
    · exact Or.inr ⟨a₀, ha₀, hid₀.trans hid⟩

theorem known_confined (h : Known ctx start w) (hc : Confined env ctx w w') : Known ctx start w' := by
  refine known_of_kept h (fun o ho => ⟨o, by rw [hc.obligations]; exact ho, rfl, rfl, rfl⟩) fun a' ha' => ?_
  obtain ⟨f, new, heq, hf, hnew⟩ := hc.adjustments
  rw [heq] at ha'
  rcases List.mem_append.mp ha' with ha' | ha'
  · obtain ⟨a, ha, rfl⟩ := List.mem_map.mp ha'
    right
    rcases hf a ha with hsame | ⟨-, t, hsame⟩
    · exact ⟨a, ha, by rw [hsame], by rw [hsame]⟩
    · exact ⟨a, ha, by rw [hsame], by rw [hsame]⟩
  · left
    unfold Own
    rw [hc.obligations]
    exact (hnew a' ha').2

theorem apply_keeps (a : Adjustment) (o : Obligation) : (Adjustment.apply a o).id = o.id ∧
    (Adjustment.apply a o).tenantId = o.tenantId ∧ (Adjustment.apply a o).partyId = o.partyId := by
  unfold Adjustment.apply
  split <;> exact ⟨rfl, rfl, rfl⟩

theorem enqueue_keeps (now : Time) (userId source text : String) (trusted : Bool) (stamp : Option Id) (db : Db) :
    (enqueue now userId source text trusted stamp db).obligations = db.obligations ∧
      (enqueue now userId source text trusted stamp db).adjustments = db.adjustments := by
  unfold enqueue
  split_ifs <;> exact ⟨rfl, rfl⟩

/-- **What a decision does**: it changes nothing, or the obligation of a pending adjustment, if it approves. -/
theorem decide_cases (tenantId id : Id) (approve : Bool) (now : Time) (db : Db) :
    decideAdjustment tenantId id approve now db = db ∨ ∃ a ∈ db.adjustments, a.id = id ∧ a.status = .pending ∧
      (decideAdjustment tenantId id approve now db).obligations =
        updateWhere (fun p => p.id = a.obligationId) (fun p => if approve then Adjustment.apply a p else p)
          db.obligations ∧
      ∀ b' ∈ (decideAdjustment tenantId id approve now db).adjustments,
        ∃ b ∈ db.adjustments, b.id = b'.id ∧ b.obligationId = b'.obligationId := by
  unfold decideAdjustment
  cases ha : db.adjustment id with
  | none => exact Or.inl rfl
  | some a =>
    dsimp only
    cases ho : db.obligation a.obligationId with
    | none => exact Or.inl rfl
    | some o =>
      dsimp only
      by_cases hnot : o.tenantId ≠ tenantId ∨ a.status ≠ .pending
      · rw [if_pos hnot]
        exact Or.inl rfl
      rw [if_neg hnot]
      have hid : o.id = a.obligationId := key_of_lookup ho
      refine Or.inr ⟨a, mem_of_lookup ha, key_of_lookup ha, by simpa using (not_or.mp hnot).2, ?_, ?_⟩
      · rw [(enqueue_keeps _ _ _ _ _ _ _).1, ← hid]
        rfl
      · rw [(enqueue_keeps _ _ _ _ _ _ _).2]
        intro b' hb'
        obtain ⟨b, hb, rfl⟩ := mem_updateWhere.mp hb'
        refine ⟨b, hb, ?_⟩
        split_ifs <;> exact ⟨rfl, rfl⟩

theorem known_step (h : ctx.trust = .untrusted) (hk : Known ctx start w) (c : Action) :
    Known ctx start (step env ctx w c) := by
  cases c with
  | process calls => exact known_confined hk (confined_process h calls)
  | decide id approve now =>
    rcases decide_cases ctx.tenantId id approve now w.db with heq | ⟨a, -, -, -, hobligations, hadjustments⟩
    · refine known_of_kept hk (fun o ho => ⟨o, ?_, rfl, rfl, rfl⟩) fun b hb => Or.inr ⟨b, ?_, rfl, rfl⟩
      · rw [step, heq]
        exact ho
      · rw [step, heq] at hb
        exact hb
    · refine known_of_kept hk (fun o ho => ?_) fun b hb => Or.inr (hadjustments b hb)
      refine ⟨_, hobligations ▸ mem_updateWhere.mpr ⟨o, ho, rfl⟩, ?_⟩
      split_ifs
      · exact apply_keeps a o
      · exact ⟨rfl, rfl, rfl⟩
      · exact ⟨rfl, rfl, rfl⟩

theorem byOwner_step (h : ctx.trust = .untrusted) (hk : Known ctx start w) (c : Action) :
    ByOwner ctx start w (step env ctx w c) c := by
  cases c with
  | process calls => exact Or.inl (confined_process h calls).obligations
  | decide id approve now =>
    rcases decide_cases ctx.tenantId id approve now w.db with heq | ⟨a, ha, rfl, hpending, hobligations, -⟩
    · exact Or.inl (by rw [step, heq])
    · cases approve with
      | false =>
        left
        refine hobligations.trans ?_
        unfold updateWhere
        simp
      | true =>
        refine Or.inr ⟨a, ha, hpending, ⟨now, rfl⟩, hk a ha, fun o ho hne => ?_⟩
        refine hobligations ▸ mem_updateWhere.mpr ⟨o, ho, if_neg hne⟩

end

/-- **An untrusted session is confined.** Over any run of its calls and of the owner's decisions, the calls write
nothing but what `Confined` allows, and obligations change only where the owner approves a pending adjustment. -/
theorem untrusted_confined (env : Env) (ctx : Ctx) (h : ctx.trust = .untrusted) (start : World) (cs : List Action) :
    ∀ pre c post, cs = pre ++ c :: post →
      let w := run (step env ctx) start pre
      (∀ calls, c = .process calls → Confined env ctx w (step env ctx w c)) ∧ ByOwner ctx start w (step env ctx w c) c := by
  intro pre c post _
  have hknown : Known ctx start (run (step env ctx) start pre) := by
    have hstep : ∀ w c, Known ctx start w → True → Known ctx start (step env ctx w c) :=
      fun w c hk _ => known_step h hk c
    exact inv_run hstep (fun a ha => Or.inr ⟨a, ha, rfl⟩) (along_of_forall fun _ _ => trivial)
  refine ⟨?_, byOwner_step h hknown c⟩
  rintro calls rfl
  exact confined_process h calls

/-! ### A card is recorded -/

/-- Evidence and pending adjustments of the own party are all that is written. -/
structure WritesOnly (env : Env) (ctx : Ctx) (w w' : World) : Prop where
  obligations : w'.db.obligations = w.db.obligations
  outbox : ∃ new, w'.db.outbox = w.db.outbox ++ new ∧ ∀ r ∈ new, OwnEvidence ctx r
  adjustments : ∃ new, w'.db.adjustments = w.db.adjustments ++ new ∧ ∀ a ∈ new, a.status = .pending ∧ Own ctx w.db a
  outbound : w'.db.outbound = w.db.outbound
  sent : ∃ new, w'.sent = w.sent ++ new ∧ ∀ phone ∈ new, phone = env.ownerPhone

/-- An environment in which an id is a text that is not empty. -/
def plainEnv : Env where
  rules := { sensitiveStep := fun _ _ => false, submitsTypedText := fun _ _ => false, sensitivePage := fun _ => false,
             approvalText := fun name _ => name, strip := id, quote := id }
  ownerPhone := "91"
  castId := fun s => if s = "" ∨ s = "None" then none else some s
  castId_empty := rfl
  castId_none := rfl
  sha256 := id
  repr := fun _ => ""
  parseFloat := fun _ => .bad
  isoDate := fun _ => none
  exec := fun _ _ w => w
  gate := fun _ _ w => .ok (w, false)

def customer : Ctx := { id := "session", tenantId := "shop", trust := .untrusted, partyId := some "party" }

def shop : World :=
  let party : Party := { id := "party", tenantId := "shop", canonicalName := "Customer", whatsappPhone := "92" }
  let invoice : Obligation :=
    { id := "invoice", tenantId := "shop", partyId := "party", invoiceRef := "1", amountPaise := 100, dueDate := 0,
      nextFollowupAt := none, state := .active }
  { db := { parties := [party], obligations := [invoice] }, sessions := [{ id := "session", status := .running }] }

/-- The customer says that the invoice was paid, and the model proposes so. -/
def proof : ToolCall × Answers :=
  let args : Json := .obj [("obligation_id", .str "invoice"), ("kind", .str "UTR_PROOF"), ("evidence", .str "UTR 1")]
  ({ id := "call", name := "propose_ledger_adjustment", args },
    { adjustmentId := "adjustment", send := { msgId := some "wamid" } })

theorem customer_confined : customer.trust = .untrusted ∧
    ∀ pre c post, [.process [proof], .decide "adjustment" true 0] = pre ++ c :: post →
      let w := run (step plainEnv customer) shop pre
      (∀ calls, c = .process calls → Confined plainEnv customer w (step plainEnv customer w c)) ∧
        ByOwner customer shop w (step plainEnv customer w c) c :=
  ⟨rfl, untrusted_confined plainEnv customer rfl shop _⟩

/-- The card of the proposal is recorded as a message that was sent. -/
theorem card_recorded : ¬ ∀ (env : Env) (ctx : Ctx), ctx.trust = .untrusted → ∀ (calls : List (ToolCall × Answers)) w,
    WritesOnly env ctx w (process env ctx calls w) := by
  intro h
  have houtbound := (h plainEnv customer rfl [proof] shop).outbound
  revert houtbound
  decide

end Smara.Server.Confinement
