import Smara.Lib.Loop
import Smara.Server.Channel
import Smara.Server.Writes

/-! # The tick of the scheduler

A tick claims the invoices that are due, all in one transaction, and then asks the owner about one after the other:
an agent may prepare the reminder and wait for the owner, or a card is sent. An invoice about which the owner cannot
be asked is put back.

* `tick`: a pass of the scheduler, with what the network, the agent and the database answer.
* `Settled`: the owner was asked about each invoice that was claimed, or it was put back.
* `Safe`: the answers for which that is so (`settled_iff`). -/

namespace Smara.Server.Ticks

open Lib.Loop Lib.Table Server.Schema Server.Ledger Server.Writes
open Server.Channel (Reach Answer Result sendToOwner sendWhatsapp pickChannel nudgeRaises)
open TaskStore.Schema (Time)

/-! ### What is answered -/

/-- `tenants.by_id` raises, finds nothing, or finds the tenant with the number of its owner. -/
inductive Lookup
  | raises
  | found (ownerPhone : Option String)
  deriving DecidableEq

inductive SessionStatus
  | running | waitingApproval | done | failed
  deriving DecidableEq

/-- A session of the agent, with the obligation that its pending call is about. -/
structure AgentSession where
  id : Id
  status : SessionStatus
  pendingObligation : Option Id := none
  deriving DecidableEq

structure AgentAnswer where
  /-- the session that it leaves -/
  session : Option AgentSession := none
  /-- `start_session` has raised -/
  raised : Bool := false
  /-- the status of the session could be read -/
  read : Bool := true

/-- What is answered in a tick; a tenant is looked up once, and an obligation has one turn. -/
structure Env where
  quiet : Bool := false
  /-- `claim_due` has not raised -/
  claims : Bool := true
  lookup : Id → Lookup
  /-- there is a model for the agent -/
  enabled : Bool := false
  agent : Id → AgentAnswer := fun _ => {}
  reach : Id → Reach := fun _ => {}
  uuid : Id → String := id
  send : Id → Answer := fun _ => {}
  /-- `release_claim` has not raised -/
  releases : Id → Bool := fun _ => true

/-! ### The tick -/

structure State where
  db : Db
  /-- the tenants that were looked up -/
  known : List (Id × Option String) := []
  sessions : List AgentSession := []
  /-- the obligations whose card was passed on or held; kept for the statements only -/
  asked : List Id := []
  sent : ℕ := 0

def tenantOf (env : Env) (tenantId : Id) (s : State) : Except State (Option String × State) :=
  match s.known.find? fun e => e.1 = tenantId with
  | some e => .ok (e.2, s)
  | none =>
    match env.lookup tenantId with
    | .raises => .error s
    | .found t => .ok (t, { s with known := s.known ++ [(tenantId, t)] })

/-- **`_agent_reminder`**: it raises, or says whether the session waits for the owner. -/
def agentReminder (a : AgentAnswer) : Option Bool :=
  if a.raised then some false
  else if a.read then a.session.map fun s => s.status = .waitingApproval
  else none

def reminderCard (ownerPhone : String) (o : Obligation) : OutboundMessage :=
  { msgId := "", tenantId := o.tenantId, kind := .ownerReminderCard, toPhone := ownerPhone, obligationId := some o.id }

/-- The card is sent; an obligation whose card could not be sent is put back. -/
def ask (env : Env) (now : Time) (ownerPhone : String) (o : Obligation) (s : State) : Except State State :=
  let r := sendToOwner (env.reach o.id) none (reminderCard ownerPhone o) (env.uuid o.id) (env.send o.id) s.db.outbound
  let s := { s with
    db := { s.db with outbound := r.rows }
    asked := if r.held || r.passed then s.asked ++ [o.id] else s.asked }
  if r.raised then
    if env.releases o.id then .ok { s with db := releaseClaim o now s.db } else .error s
  else .ok { s with sent := s.sent + 1 }

def turn (env : Env) (now : Time) (o : Obligation) (s : State) : Except State State :=
  match tenantOf env o.tenantId s with
  | .error s => .error s
  | .ok (none, s) => .ok s
  | .ok (some ownerPhone, s) =>
    if env.enabled then
      let s := { s with sessions := s.sessions ++ (env.agent o.id).session.toList }
      match agentReminder (env.agent o.id) with
      | none => .error s
      | some true => .ok { s with sent := s.sent + 1 }
      | some false => ask env now ownerPhone o s
    else ask env now ownerPhone o s

/-- The limit of `claim_due`. -/
def claimLimit : ℕ := 20

def claimed (env : Env) (now : Time) (locked : List Id) (db : Db) : List Obligation :=
  if env.quiet ∨ env.claims = false then [] else dueRows now claimLimit locked db

/-- **`tick`**, from the database as `drain`, `flush_held` and `run_due` leave it; whatever these raise is logged. -/
def tick (env : Env) (now : Time) (locked : List Id) (db : Db) : Except State State :=
  if env.quiet then .ok { db }
  else if env.claims = false then .error { db }
  else loop (turn env now) (dueRows now claimLimit locked db) { db := (claimDue now claimLimit locked db).1 }

/-! ### What is to hold -/

def WaitsOn (a : AgentSession) (o : Obligation) : Prop :=
  a.status = .waitingApproval ∧ a.pendingObligation = some o.id

instance (a : AgentSession) (o : Obligation) : Decidable (WaitsOn a o) := inferInstanceAs (Decidable (_ ∧ _))

def Covered (o : Obligation) (s : State) : Prop := o.id ∈ s.asked ∨ ∃ a ∈ s.sessions, WaitsOn a o

instance (o : Obligation) (s : State) : Decidable (Covered o s) := inferInstanceAs (Decidable (_ ∨ _))

def PutBack (now : Time) (o : Obligation) (db : Db) : Prop :=
  ∃ p ∈ db.obligations, p.id = o.id ∧ p.state = o.state ∧ p.nextFollowupAt = some (now + minutes 10)

instance (now : Time) (o : Obligation) (db : Db) : Decidable (PutBack now o db) :=
  inferInstanceAs (Decidable (∃ _ ∈ _, _))

/-- **No invoice is stranded.** -/
def Settled (env : Env) (now : Time) (locked : List Id) (db : Db) : Prop :=
  ∀ o ∈ claimed env now locked db,
    Covered o (final (tick env now locked db)) ∨ PutBack now o (final (tick env now locked db)).db

instance (env : Env) (now : Time) (locked : List Id) (db : Db) : Decidable (Settled env now locked db) :=
  inferInstanceAs (Decidable (∀ _ ∈ _, _))

/-! ### The answers that settle an invoice -/

def Closed (r : Reach) : Prop := pickChannel r none = .whatsapp ∧ r.ownerTemplate ∧ r.windowOpen = false

instance (r : Reach) : Decidable (Closed r) := inferInstanceAs (Decidable (_ ∧ _))

def CardOut (r : Reach) (a : Answer) : Prop := (if r.quiet ∨ Closed r then a.recorded else a.sent) = true

instance (r : Reach) (a : Answer) : Decidable (CardOut r a) :=
  inferInstanceAs (Decidable ((if r.quiet ∨ Closed r then a.recorded else a.sent) = true))

/-- The send of the card raises, before or after the card is out. -/
def CardRaises (r : Reach) (a : Answer) : Prop :=
  if r.quiet then a.recorded = false
  else if pickChannel r none = .telegram then a.sent = false
  else if Closed r then a.recorded = false ∨ nudgeRaises r a
  else a.sent = false ∨ a.msgId.isSome ∧ a.recorded = false

instance (r : Reach) (a : Answer) : Decidable (CardRaises r a) :=
  inferInstanceAs (Decidable (if r.quiet then a.recorded = false
    else if pickChannel r none = .telegram then a.sent = false
    else if Closed r then a.recorded = false ∨ nudgeRaises r a
    else a.sent = false ∨ a.msgId.isSome ∧ a.recorded = false))

def Lookup.owner : Lookup → Option String
  | .raises => none
  | .found ownerPhone => ownerPhone

def Found (env : Env) (o : Obligation) : Prop := (env.lookup o.tenantId).owner.isSome

instance (env : Env) (o : Obligation) : Decidable (Found env o) := inferInstanceAs (Decidable (_ = _))

def started (env : Env) (o : Obligation) : List AgentSession :=
  if Found env o ∧ env.enabled then (env.agent o.id).session.toList else []

def FallsBack (env : Env) (o : Obligation) : Prop :=
  Found env o ∧ (env.enabled → agentReminder (env.agent o.id) = some false)

instance (env : Env) (o : Obligation) : Decidable (FallsBack env o) := inferInstanceAs (Decidable (_ ∧ _))

def Asks (env : Env) (o : Obligation) : Prop := FallsBack env o ∧ CardOut (env.reach o.id) (env.send o.id)

instance (env : Env) (o : Obligation) : Decidable (Asks env o) := inferInstanceAs (Decidable (_ ∧ _))

def Releases (env : Env) (o : Obligation) : Prop :=
  FallsBack env o ∧ CardRaises (env.reach o.id) (env.send o.id) ∧ env.releases o.id

instance (env : Env) (o : Obligation) : Decidable (Releases env o) := inferInstanceAs (Decidable (_ ∧ _))

/-- The turn of the obligation raises: the tenant cannot be looked up, or the status of the session cannot be read, or
neither can the card be sent nor the obligation be put back. -/
def Stops (env : Env) (o : Obligation) : Prop :=
  env.lookup o.tenantId = .raises ∨
    (Found env o ∧ env.enabled ∧ agentReminder (env.agent o.id) = none) ∨
      FallsBack env o ∧ CardRaises (env.reach o.id) (env.send o.id) ∧ env.releases o.id = false

instance (env : Env) (o : Obligation) : Decidable (Stops env o) := inferInstanceAs (Decidable (_ ∨ _))

/-- **The answers that strand no invoice**: the tick comes to a turn in which a session is left that waits about the
invoice, or to its own, in which the card is out or the invoice is put back. -/
def Safe (env : Env) (rows : List Obligation) : Prop :=
  ∀ o ∈ rows, ∃ o' ∈ upTo (Stops env) rows,
    (∃ a ∈ started env o', WaitsOn a o) ∨ o' = o ∧ (Asks env o ∨ Releases env o)

instance (env : Env) (rows : List Obligation) : Decidable (Safe env rows) :=
  inferInstanceAs (Decidable (∀ _ ∈ _, _))

/-! ### A turn -/

section

variable {env : Env} {now : Time} {o : Obligation} {s : State}

theorem whatsapp_of_not_telegram {r : Reach} (h : pickChannel r none ≠ .telegram) :
    pickChannel r none = .whatsapp := by
  cases hc : pickChannel r none with
  | telegram => exact absurd hc h
  | whatsapp => rfl

/-- **The send of a reminder card**: when it is out, and when it raises. -/
theorem sendToOwner_reminderCard (r : Reach) (a : Answer) (ownerPhone uuid : String)
    (rows : List OutboundMessage) :
    (((sendToOwner r none (reminderCard ownerPhone o) uuid a rows).held ||
      (sendToOwner r none (reminderCard ownerPhone o) uuid a rows).passed) = true ↔ CardOut r a) ∧
    ((sendToOwner r none (reminderCard ownerPhone o) uuid a rows).raised = true ↔ CardRaises r a) := by
  unfold sendToOwner sendWhatsapp CardOut CardRaises Closed
  have hcard : (reminderCard ownerPhone o).kind ∈ cardKinds := by simp [reminderCard, cardKinds]
  by_cases hquiet : r.quiet = true
  · cases ha : a.recorded <;> simp [hquiet, hcard]
  by_cases htelegram : pickChannel r none = .telegram
  · cases ha : a.sent <;> simp [hquiet, htelegram]
  have hwhatsapp := whatsapp_of_not_telegram htelegram
  by_cases hclosed : r.ownerTemplate = true ∧ r.windowOpen = false
  · cases ha : a.recorded <;> simp [hquiet, hcard, hwhatsapp, hclosed]
  · have hkind : (reminderCard ownerPhone o).kind ≠ .ownerDigest := by simp [reminderCard]
    cases ha : a.sent
    · simp [hquiet, hcard, hwhatsapp, hclosed, hkind]
    · cases hid : a.msgId with
      | none => simp [hquiet, hcard, hwhatsapp, hclosed, hkind]
      | some msgId => cases hr : a.recorded <;> simp [hquiet, hcard, hwhatsapp, hclosed, hkind]

def Known (env : Env) (s : State) : Prop := ∀ e ∈ s.known, env.lookup e.1 = .found e.2

/-- What a turn leaves of the state before it. -/
structure Turned (env : Env) (now : Time) (o : Obligation) (s : State) (r : Except State State) : Prop where
  known : Known env (final r)
  asked : (final r).asked = if Asks env o then s.asked ++ [o.id] else s.asked
  sessions : (final r).sessions = s.sessions ++ started env o
  obligations : (final r).db.obligations =
    if Releases env o then (releaseClaim o now s.db).obligations else s.db.obligations
  raised : Raised r ↔ Stops env o

theorem tenantOf_cases (h : Known env s) (tenantId : Id) :
    (env.lookup tenantId = .raises ∧ tenantOf env tenantId s = .error s) ∨
      ∃ t known, env.lookup tenantId = .found t ∧ tenantOf env tenantId s = .ok (t, { s with known }) ∧
        Known env { s with known } := by
  unfold tenantOf
  cases hfind : s.known.find? fun e => e.1 = tenantId with
  | some e =>
    have hid : e.1 = tenantId := by simpa using List.find?_some hfind
    refine Or.inr ⟨e.2, s.known, ?_, rfl, h⟩
    rw [← hid]
    exact h e (List.mem_of_find?_eq_some hfind)
  | none =>
    cases hlookup : env.lookup tenantId with
    | raises => exact Or.inl ⟨rfl, rfl⟩
    | found t =>
      refine Or.inr ⟨t, _, rfl, rfl, ?_⟩
      intro e he
      rcases List.mem_append.mp he with he | he
      · exact h e he
      · rw [List.mem_singleton.mp he]
        exact hlookup

theorem ask_spec (ownerPhone : String) (hback : FallsBack env o) :
    let r := ask env now ownerPhone o s
    (final r).known = s.known ∧ (final r).asked = (if Asks env o then s.asked ++ [o.id] else s.asked) ∧
      (final r).sessions = s.sessions ∧
      (final r).db.obligations =
        (if Releases env o then (releaseClaim o now s.db).obligations else s.db.obligations) ∧
      (Raised r ↔ CardRaises (env.reach o.id) (env.send o.id) ∧ env.releases o.id = false) := by
  intro r
  obtain ⟨hout, hraised⟩ :=
    sendToOwner_reminderCard (o := o) (env.reach o.id) (env.send o.id) ownerPhone (env.uuid o.id) s.db.outbound
  have hasks : Asks env o ↔ CardOut (env.reach o.id) (env.send o.id) := and_iff_right hback
  have hreleases : Releases env o ↔ CardRaises (env.reach o.id) (env.send o.id) ∧ env.releases o.id :=
    and_iff_right hback
  simp only [hasks, hreleases, ← hout, ← hraised, r, ask]
  generalize sendToOwner _ _ _ _ _ _ = sent
  cases sent.raised <;> cases env.releases o.id <;> simp [final, Raised, releaseClaim, Db.event, Db.updateObligation]

theorem turned (h : Known env s) : Turned env now o s (turn env now o s) := by
  have hnotBack : ¬ Found env o → ¬ Asks env o ∧ ¬ Releases env o := fun h => ⟨fun ha => h ha.1.1, fun hr => h hr.1.1⟩
  unfold turn
  rcases tenantOf_cases h o.tenantId with ⟨hlookup, heq⟩ | ⟨t, known, hlookup, heq, hknown⟩
  · have hfound : ¬ Found env o := by simp [Found, hlookup, Lookup.owner]
    rw [heq]
    refine ⟨h, ?_, ?_, ?_, by simp [Raised, Stops, hlookup]⟩
    · simp [final, hnotBack hfound]
    · simp [final, started, hfound]
    · simp [final, hnotBack hfound]
  rw [heq]
  cases t with
  | none =>
    have hfound : ¬ Found env o := by simp [Found, hlookup, Lookup.owner]
    refine ⟨hknown, ?_, ?_, ?_, ?_⟩
    · simp [final, hnotBack hfound]
    · simp [final, started, hfound]
    · simp [final, hnotBack hfound]
    · simp [Raised, Stops, hlookup, hfound, FallsBack]
  | some ownerPhone =>
    have hfound : Found env o := by simp [Found, hlookup, Lookup.owner]
    by_cases henabled : env.enabled = true
    · simp only [henabled, if_true]
      have hstarted : started env o = (env.agent o.id).session.toList := if_pos ⟨hfound, henabled⟩
      cases hagent : agentReminder (env.agent o.id) with
      | none =>
        have hback : ¬ FallsBack env o := by simp [FallsBack, henabled, hagent]
        refine ⟨hknown, ?_, ?_, ?_, ?_⟩
        · simp [final, Asks, hback]
        · simp [final, hstarted]
        · simp [final, Releases, hback]
        · simp [Raised, Stops, hfound, henabled, hagent]
      | some waits =>
        cases waits with
        | true =>
          have hback : ¬ FallsBack env o := by simp [FallsBack, henabled, hagent]
          refine ⟨hknown, ?_, ?_, ?_, ?_⟩
          · simp [final, Asks, hback]
          · simp [final, hstarted]
          · simp [final, Releases, hback]
          · simp [Raised, Stops, hlookup, hback, hagent]
        | false =>
          have hback : FallsBack env o := ⟨hfound, fun _ => hagent⟩
          obtain ⟨hk, ha, hs, ho, hr⟩ := ask_spec (s := { s with
            known, sessions := s.sessions ++ (env.agent o.id).session.toList }) ownerPhone hback
          refine ⟨?_, ha, by rw [hstarted]; exact hs, ho, ?_⟩
          · unfold Known
            rw [hk]
            exact hknown
          · rw [hr]
            simp [Stops, hlookup, hagent, hback]
    · have hback : FallsBack env o := ⟨hfound, fun h => absurd h henabled⟩
      have hstarted : started env o = [] := if_neg fun h => henabled h.2
      simp only [henabled, Bool.false_eq_true, if_false]
      obtain ⟨hk, ha, hs, ho, hr⟩ := ask_spec (s := { s with known }) ownerPhone hback
      refine ⟨?_, ha, by rw [hstarted, List.append_nil]; exact hs, ho, ?_⟩
      · unfold Known
        rw [hk]
        exact hknown
      · rw [hr]
        simp [Stops, hlookup, henabled, hback]

end

/-! ### A tick -/

section

variable {env : Env} {now : Time} {locked : List Id} {db : Db} {rows done rest : List Obligation} {o o' : Obligation}
  {s : State}

/-- What the turns that are done say of an obligation that was claimed. -/
structure Fate (env : Env) (now : Time) (o : Obligation) (done : List Obligation) (s : State) : Prop where
  known : Known env s
  distinct : Keyed Obligation.id s.db.obligations
  asked : o.id ∈ s.asked ↔ o ∈ done ∧ Asks env o
  sessions : ∀ a, a ∈ s.sessions ↔ ∃ o' ∈ done, a ∈ started env o'
  row : ∃ p ∈ s.db.obligations, p.id = o.id ∧
    if o ∈ done ∧ Releases env o then p.state = o.state ∧ p.nextFollowupAt = some (now + minutes 10)
    else p.state = .waitingOwnerApproval

theorem fate_turn (hids : Keyed Obligation.id rows) (ho : o ∈ rows) (hrows : rows = done ++ o' :: rest)
    (h : Fate env now o done s) : Fate env now o (done ++ [o']) (final (turn env now o' s)) := by
  have ht : Turned env now o' s (turn env now o' s) := turned h.known
  have ho' : o' ∈ rows := by simp [hrows]
  have hsame : o.id = o'.id ↔ o = o' := ⟨fun hid => hids.eq_of_key ho ho' hid, fun h => h ▸ rfl⟩
  have hnotDone : o' ∉ done := by
    intro hmem
    have hnodup := hids.of_map
    rw [hrows] at hnodup
    exact (List.nodup_append.mp hnodup).2.2 o' hmem o' List.mem_cons_self rfl
  refine ⟨ht.known, ?_, ?_, ?_, ?_⟩
  · rw [ht.obligations]
    have hdistinct : Keyed Obligation.id (releaseClaim o' now s.db).obligations := by
      refine (keyed_updateWhere ?_).mpr h.distinct
      intro p _
      rfl
    split_ifs with hrel
    · exact hdistinct
    · exact h.distinct
  · rw [ht.asked]
    by_cases hasks : Asks env o'
    · rw [if_pos hasks, List.mem_append, h.asked, List.mem_singleton, hsame]
      constructor
      · rintro (⟨hdone, ha⟩ | rfl)
        · exact ⟨by simp [hdone], ha⟩
        · exact ⟨by simp, hasks⟩
      · rintro ⟨hdone, ha⟩
        rcases List.mem_append.mp hdone with hdone | heq
        · exact Or.inl ⟨hdone, ha⟩
        · exact Or.inr (List.mem_singleton.mp heq)
    · rw [if_neg hasks, h.asked]
      constructor
      · rintro ⟨hdone, ha⟩
        exact ⟨by simp [hdone], ha⟩
      · rintro ⟨hdone, ha⟩
        rcases List.mem_append.mp hdone with hdone | heq
        · exact ⟨hdone, ha⟩
        · exact absurd (List.mem_singleton.mp heq ▸ ha) hasks
  · intro a
    rw [ht.sessions, List.mem_append, h.sessions]
    constructor
    · rintro (⟨o₁, h₁, ha⟩ | ha)
      · exact ⟨o₁, by simp [h₁], ha⟩
      · exact ⟨o', by simp, ha⟩
    · rintro ⟨o₁, h₁, ha⟩
      rcases List.mem_append.mp h₁ with h₁ | heq
      · exact Or.inl ⟨o₁, h₁, ha⟩
      · exact Or.inr (List.mem_singleton.mp heq ▸ ha)
  · obtain ⟨p, hp, hid, hrow⟩ := h.row
    rw [ht.obligations]
    by_cases heq : o = o'
    · subst heq
      rw [if_neg fun hd => hnotDone hd.1] at hrow
      by_cases hrel : Releases env o
      · rw [if_pos hrel]
        refine ⟨_, mem_updateWhere.mpr ⟨p, hp, if_pos ⟨hid, hrow⟩⟩, hid, ?_⟩
        rw [if_pos ⟨by simp, hrel⟩]
        exact ⟨rfl, rfl⟩
      · rw [if_neg hrel]
        refine ⟨p, hp, hid, ?_⟩
        rwa [if_neg fun hd => hrel hd.2]
    · have hsame' : o ∈ done ++ [o'] ↔ o ∈ done := by simp [heq]
      refine ⟨p, ?_, hid, by simpa only [hsame'] using hrow⟩
      split_ifs with hrel
      · refine mem_updateWhere.mpr ⟨p, hp, if_neg ?_⟩
        rintro ⟨hid', -⟩
        exact heq (hsame.mp (hid ▸ hid'))
      · exact hp

theorem waits_claimRows {db : Db} (h : ∃ p ∈ db.obligations, p.id = o.id ∧ (p.state = .waitingOwnerApproval ∨ o ∈ rows)) :
    ∃ p ∈ (rows.foldl (fun db o => claimRow o db) db).obligations, p.id = o.id ∧ p.state = .waitingOwnerApproval := by
  induction rows generalizing db with
  | nil => simpa using h
  | cons o' rows ih =>
    obtain ⟨p, hp, hid, hstate⟩ := h
    refine ih ?_
    by_cases heq : p.id = o'.id
    · exact ⟨_, mem_updateWhere.mpr ⟨p, hp, if_pos heq⟩, hid, Or.inl rfl⟩
    · refine ⟨p, mem_updateWhere.mpr ⟨p, hp, if_neg heq⟩, hid, hstate.imp_right fun ho => ?_⟩
      rcases List.mem_cons.mp ho with rfl | ho
      · exact absurd hid heq
      · exact ho

theorem fate_claimDue (hd : Distinct (book db)) (ho : o ∈ dueRows now claimLimit locked db) :
    Fate env now o [] { db := (claimDue now claimLimit locked db).1 } := by
  refine ⟨by simp [Known], distinct_ordinaries (ordinary_claimDue hd) hd, by simp, by simp, ?_⟩
  obtain ⟨p, hp, hid, hstate⟩ := waits_claimRows ⟨o, (mem_dueRows ho).1, rfl, Or.inr ho⟩
  exact ⟨p, hp, hid, by simpa using hstate⟩

theorem fate_tick (hd : Distinct (book db)) (ho : o ∈ claimed env now locked db) :
    Fate env now o (upTo (Stops env) (claimed env now locked db)) (final (tick env now locked db)) := by
  by_cases hnone : env.quiet = true ∨ env.claims = false
  · rw [claimed, if_pos hnone] at ho
    cases ho
  obtain ⟨hquiet, hclaims⟩ := not_or.mp hnone
  rw [claimed, if_neg hnone] at ho ⊢
  rw [tick, if_neg hquiet, if_neg hclaims]
  have hids : Keyed Obligation.id (dueRows now claimLimit locked db) := dueRows_ids hd
  rw [← List.nil_append (upTo _ _)]
  refine inv_loop (I := Fate env now o) ?_ ?_ rfl (fate_claimDue hd ho)
  · intro done o' rest s hrows h
    exact fate_turn hids ho hrows h
  · intro done o' rest s _ h
    exact (turned h.known).raised

theorem covered_iff (h : Fate env now o done s) :
    Covered o s ↔ o ∈ done ∧ Asks env o ∨ ∃ o' ∈ done, ∃ a ∈ started env o', WaitsOn a o := by
  unfold Covered
  rw [h.asked]
  refine or_congr Iff.rfl ?_
  constructor
  · rintro ⟨a, ha, hw⟩
    obtain ⟨o', ho', ha⟩ := (h.sessions a).mp ha
    exact ⟨o', ho', a, ha, hw⟩
  · rintro ⟨o', ho', a, ha, hw⟩
    exact ⟨a, (h.sessions a).mpr ⟨o', ho', ha⟩, hw⟩

theorem putBack_iff (hstate : o.state ≠ .waitingOwnerApproval) (h : Fate env now o done s) :
    PutBack now o s.db ↔ o ∈ done ∧ Releases env o := by
  obtain ⟨p, hp, hid, hrow⟩ := h.row
  constructor
  · rintro ⟨q, hq, hqid, hq', -⟩
    by_contra hnot
    rw [if_neg hnot] at hrow
    obtain rfl := h.distinct.eq_of_key hp hq (hid.trans hqid.symm)
    exact hstate (hq'.symm.trans hrow)
  · intro hback
    rw [if_pos hback] at hrow
    exact ⟨p, hp, hid, hrow⟩

/-- **No invoice is stranded** by exactly the answers that are safe: the owner was asked about each invoice that the
tick has claimed, or it was put back, whether the tick returns or raises. -/
theorem settled_iff (env : Env) (now : Time) (locked : List Id) (db : Db) (hd : Distinct (book db)) :
    Settled env now locked db ↔ Safe env (claimed env now locked db) := by
  refine forall₂_congr fun o ho => ?_
  have hstate : o.state ≠ .waitingOwnerApproval := by
    have hdue : o ∈ dueRows now claimLimit locked db := by
      unfold claimed at ho
      split_ifs at ho
      · cases ho
      · exact ho
    obtain ⟨-, ⟨hstate, -⟩, -⟩ := mem_dueRows hdue
    intro hw
    simp [hw] at hstate
  have hfate := fate_tick hd ho
  rw [covered_iff hfate, putBack_iff hstate hfate]
  constructor
  · rintro ((⟨hdone, ha⟩ | ⟨o', ho', ha⟩) | ⟨hdone, hr⟩)
    · exact ⟨o, hdone, Or.inr ⟨rfl, Or.inl ha⟩⟩
    · exact ⟨o', ho', Or.inl ha⟩
    · exact ⟨o, hdone, Or.inr ⟨rfl, Or.inr hr⟩⟩
  · rintro ⟨o', ho', ha | ⟨rfl, ha | hr⟩⟩
    · exact Or.inl (Or.inr ⟨o', ho', ha⟩)
    · exact Or.inl (Or.inl ⟨ho', ha⟩)
    · exact Or.inr ⟨ho', hr⟩

end

def oneDue : Db :=
  let invoice : Obligation :=
    { id := "invoice", tenantId := "shop", partyId := "party", invoiceRef := "1", amountPaise := 100, dueDate := 0,
      nextFollowupAt := some 0, state := .active }
  { obligations := [invoice] }

/-- The card cannot be sent, and the invoice is put back. -/
theorem oneDue_settled :
    let env : Env := { lookup := fun _ => .found (some "91"), send := fun _ => { sent := false } }
    Distinct (book oneDue) ∧ Settled env 0 [] oneDue := by
  intro env
  have hd : Distinct (book oneDue) := List.nodup_singleton _
  refine ⟨hd, (settled_iff env 0 [] oneDue hd).mpr ?_⟩
  decide_cbv

/-- The tenant cannot be looked up: the invoice waits for an owner who was not asked. -/
theorem oneDue_stranded : ¬ ∀ (env : Env) (now : Time) (locked : List Id) (db : Db), Distinct (book db) →
    Settled env now locked db := by
  intro h
  have hsettled := h { lookup := fun _ => .raises } 0 [] oneDue (List.nodup_singleton _)
  revert hsettled
  decide +kernel

end Smara.Server.Ticks
