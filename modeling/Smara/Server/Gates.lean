import Smara.Lib.Machine
import Smara.Server.Schema

/-! # Calls that wait for the owner

A session of the agent stops at a call that the owner must approve. The owner is shown a card of the call, and the
session waits until a tap resumes it; it may then come to another call. The buttons of a card name the session, or
the adjustment that the call proposes, and not the call.

* `step`: calls are gated, cards are sent and sent again, and the owner taps on any card, in any order.
* `Bound`: what is approved is the call of the card, which had not been decided before.
* `Fresh`: no card of a decided call is tapped while its session waits again (`bound_iff`). -/

namespace Smara.Server.Gates

open Lib.Machine Lib.Table Server.Schema

/-! ### The tables -/

/-- A call as `validate_gated` leaves it. -/
structure Call where
  callId : String
  name : String
  args : String
  /-- what is kept of it as evidence, if it proposes an adjustment -/
  evidence : String := ""
  deriving DecidableEq

structure Pending where
  call : Call
  adjustmentId : Option Id := none
  deriving DecidableEq

/-- What a session is at; `opening` is between the card and the save of the pending call. A session that has failed,
or whose worker is gone, has ended. -/
inductive Phase
  | running
  | opening (p : Pending)
  | waiting (p : Pending)
  | done
  | ended
  deriving DecidableEq

structure Session where
  id : Id
  tenantId : Id
  phase : Phase := .running
  /-- the number of its calls that were decided; kept for the statements only -/
  decided : ℕ := 0
  deriving DecidableEq

/-- A row of `proposed_adjustments`; its source id is a digest of the session, the call and the evidence. -/
structure Proposed where
  id : Id
  tenantId : Id
  session : Id
  callId : String
  evidence : String
  status : AdjustmentStatus := .pending
  deriving DecidableEq

/-- What the buttons of a card name. -/
inductive Button
  | agent (sessionId : Id)
  | adjustment (adjustmentId : Id)
  deriving DecidableEq

/-- A card; its session, the number of its call there and the call are kept for the statements only. -/
structure Card where
  tenantId : Id
  button : Button
  /-- it was passed to the owner -/
  shown : Bool
  session : Id
  gate : ℕ
  call : Call
  deriving DecidableEq

/-- The buttons approve or reject a call. -/
def Button.ofAgent : Button → Bool
  | .agent _ => true
  | .adjustment _ => false

/-- What was approved or fed back, with the card that was tapped for it. -/
structure Approval where
  card : Card
  call : Call
  /-- the call of the card was decided before -/
  stale : Bool

structure State where
  sessions : List Session := []
  proposed : List Proposed := []
  cards : List Card := []
  /-- the cards whose adjustment was decided, which are still to be fed back -/
  decisions : List Card := []
  approvals : List Approval := []

def Decided (s : State) (c : Card) : Prop := ∃ x ∈ s.sessions, x.id = c.session ∧ c.gate < x.decided

instance (s : State) (c : Card) : Decidable (Decided s c) := inferInstanceAs (Decidable (∃ _ ∈ _, _))

/-! ### Gates -/

/-- `submit_debtor_claim`: the adjustment of the call, which may be there already. -/
def submit (x : Session) (call : Call) (id : Id) (rows : List Proposed) : Option (Id × List Proposed) :=
  match rows.find? fun a => a.session = x.id ∧ a.callId = call.callId ∧ a.evidence = call.evidence with
  | some a => some (a.id, rows)
  | none =>
    if ∃ a ∈ rows, a.id = id then none
    else
      let a : Proposed :=
        { id, tenantId := x.tenantId, session := x.id, callId := call.callId, evidence := call.evidence }
      some (id, rows ++ [a])

/-- What comes of the send of a card. -/
structure Sent where
  /-- it was passed on, or held -/
  card : Option Bool := some true
  raised : Bool := false

/-- The session once the card was sent, or could not be. -/
def opened (p : Pending) (raised : Bool) (x : Session) : Session :=
  { x with phase := if raised then .ended else .opening p }

/-- **`open_gate`** of a session, with the pending call and the buttons of its card. -/
def openGate (x : Session) (p : Pending) (button : Button) (sent : Sent) (s : State) : State :=
  { s with
    sessions := updateWhere (fun y => y.id = x.id) (opened p sent.raised) s.sessions
    cards := s.cards ++ sent.card.toList.map fun shown =>
      { tenantId := x.tenantId, button, shown, session := x.id, gate := x.decided, call := p.call } }

/-- A call of a running session is gated; `id` is the id of a new adjustment. -/
def gate (sessionId : Id) (call : Call) (id : Id) (sent : Sent) (s : State) : State :=
  match lookup Session.id sessionId s.sessions with
  | none => s
  | some x =>
    if x.phase ≠ .running then s
    else if call.name = "propose_ledger_adjustment" then
      match submit x call id s.proposed with
      | none => s
      | some (a, proposed) =>
        openGate x { call, adjustmentId := some a } (.adjustment a) sent { s with proposed }
    else openGate x { call } (.agent x.id) sent s

/-- The end of `_process`: the pending call is saved, and the session waits. -/
def suspend (x : Session) : Session :=
  match x.phase with
  | .opening p => { x with phase := .waiting p }
  | _ => x

/-! ### Taps -/

def pendingOf (x : Session) : Option Pending :=
  match x.phase with
  | .waiting p => some p
  | _ => none

def Awaits (c : Card) (x : Session) : Prop :=
  x.tenantId = c.tenantId ∧ ∃ p ∈ pendingOf x,
    match c.button with
    | .agent sessionId => x.id = sessionId
    | .adjustment a => p.adjustmentId = some a

instance (c : Card) (x : Session) : Decidable (Awaits c x) := by
  unfold Awaits
  cases c.button <;> infer_instance

def resumed (x : Session) : Session := { x with phase := .running, decided := x.decided + 1 }

/-- **`resume`**: the session that waits goes on; `runs` says that its call is executed, or the decision fed back. -/
def resume (c : Card) (runs : Bool) (s : State) : State :=
  match (s.sessions.find? fun x => Awaits c x).bind pendingOf with
  | none => s
  | some p =>
    { s with
      sessions := updateWhere (Awaits c) resumed s.sessions
      approvals := if runs then s.approvals ++ [{ card := c, call := p.call, stale := Decided s c }] else s.approvals }

def Decides (c : Card) (a : Proposed) : Prop :=
  c.button = .adjustment a.id ∧ a.tenantId = c.tenantId ∧ a.status = .pending

instance (c : Card) (a : Proposed) : Decidable (Decides c a) := inferInstanceAs (Decidable (_ ∧ _))

def decided (approve : Bool) (a : Proposed) : Proposed := { a with status := if approve then .approved else .rejected }

/-- A tap on a card; `allowed` says that the policy lets the approved call run. -/
def tap (c : Card) (approve allowed : Bool) (s : State) : State :=
  match c.button with
  | .agent _ => resume c (approve && allowed) s
  | .adjustment _ =>
    if ∃ a ∈ s.proposed, Decides c a then
      { s with proposed := updateWhere (Decides c) (decided approve) s.proposed, decisions := s.decisions ++ [c] }
    else s

/-- **`resend_undelivered`** of a card: it is rebuilt from what waits now. -/
def resend (c : Card) (s : State) : State :=
  match c.button with
  | .agent sessionId =>
    match lookup Session.id sessionId s.sessions with
    | none => s
    | some x =>
      match pendingOf x with
      | none => s
      | some p =>
        let card : Card := { c with shown := true, session := x.id, gate := x.decided, call := p.call }
        { s with cards := s.cards ++ [card] }
  | .adjustment a =>
    if ∃ r ∈ s.proposed, r.id = a ∧ r.status = .pending then { s with cards := s.cards ++ [{ c with shown := true }] }
    else s

/-! ### Steps -/

/-- What may happen next; a card is given by its number. -/
inductive Action
  | start (id tenantId : Id)
  /-- an owner's message continues a session that is done -/
  | goOn (id : Id)
  | finish (id : Id)
  | fail (id : Id)
  | gate (id : Id) (call : Call) (adjustmentId : Id) (sent : Sent)
  | suspend (id : Id)
  | resend (card : ℕ)
  | tap (card : ℕ) (approve allowed : Bool)
  /-- the decision of an adjustment is fed back -/
  | feed (decision : ℕ)

def State.update (id : Id) (f : Session → Session) (s : State) : State :=
  { s with sessions := updateWhere (fun x => x.id = id) f s.sessions }

def goOn (x : Session) : Session := if x.phase = .done then { x with phase := .running } else x

def finish (x : Session) : Session := if x.phase = .running then { x with phase := .done } else x

def fail (x : Session) : Session := { x with phase := .ended }

def step (s : State) : Action → State
  | .start id tenantId =>
    if (lookup Session.id id s.sessions).isSome then s else { s with sessions := s.sessions ++ [{ id, tenantId }] }
  | .goOn id => s.update id goOn
  | .finish id => s.update id finish
  | .fail id => s.update id fail
  | .gate id call adjustmentId sent => gate id call adjustmentId sent s
  | .suspend id => s.update id suspend
  | .resend i =>
    match s.cards[i]? with
    | none => s
    | some c => resend c s
  | .tap i approve allowed =>
    match s.cards[i]? with
    | none => s
    | some c => if c.shown then tap c approve allowed s else s
  | .feed i =>
    match s.decisions[i]? with
    | none => s
    | some c => resume c true { s with decisions := s.decisions.eraseIdx i }

/-- **A tap approves what its card showed**: the call of the card is what was approved, and it was not decided
before. -/
def Bound (s : State) : Prop := ∀ a ∈ s.approvals, a.card.call = a.call ∧ a.stale = false

instance (s : State) : Decidable (Bound s) := inferInstanceAs (Decidable (∀ _ ∈ _, _))

def FreshCard (s : State) (c : Card) : Prop := (∃ x ∈ s.sessions, Awaits c x) → ¬ Decided s c

/-- **The taps that are bound**: no card of a call that was decided before is tapped to approve, nor its decision fed
back, while the session that it names waits again. -/
def Fresh (s : State) : Action → Prop
  | .tap i approve allowed =>
    ∀ c ∈ s.cards[i]?, c.shown ∧ c.button.ofAgent ∧ approve ∧ allowed → FreshCard s c
  | .feed i => ∀ c ∈ s.decisions[i]?, FreshCard s c
  | _ => True

/-! ### Cards and calls -/

def At (x : Session) (p : Pending) : Prop := x.phase = .opening p ∨ x.phase = .waiting p

/-- The card is of a call that was decided, or of the one that the session is at. -/
def Shows (x : Session) (c : Card) : Prop :=
  c.gate < x.decided ∨
    c.gate = x.decided ∧ x.phase ≠ .running ∧ x.phase ≠ .done ∧ ∀ p, At x p → p.call = c.call

def Names (proposed : List Proposed) (c : Card) : Prop :=
  match c.button with
  | .agent sessionId => sessionId = c.session
  | .adjustment a => ∃ r ∈ proposed, r.id = a ∧ r.session = c.session

def Owns (proposed : List Proposed) (x : Session) (p : Pending) : Prop :=
  ∀ a ∈ p.adjustmentId, ∃ r ∈ proposed, r.id = a ∧ r.session = x.id

structure Inv (s : State) : Prop where
  keyed : Keyed Session.id s.sessions
  proposedKeyed : Keyed Proposed.id s.proposed
  cards : ∀ c ∈ s.cards, ∃ x ∈ s.sessions, x.id = c.session ∧ Shows x c
  names : ∀ c ∈ s.cards, Names s.proposed c
  owns : ∀ x ∈ s.sessions, ∀ p, At x p → Owns s.proposed x p
  decisions : ∀ c ∈ s.decisions, c ∈ s.cards

/-- A session is brought to no call, and its cards stay what they are. -/
structure Smooth (x y : Session) : Prop where
  id : y.id = x.id
  shows : ∀ c, Shows x c → Shows y c
  keeps : ∀ p, At y p → At x p

theorem smooth_refl (x : Session) : Smooth x x := ⟨rfl, fun _ h => h, fun _ h => h⟩

theorem shows_decided {x : Session} {c : Card} (h : Shows x c) : c.gate ≤ x.decided := by
  rcases h with h | ⟨h, -⟩
  · omega
  · omega

theorem shows_idle {x : Session} {c : Card} (h : x.phase = .running ∨ x.phase = .done) (hc : Shows x c) :
    c.gate < x.decided := by
  rcases hc with hc | ⟨-, hrunning, hdone, -⟩
  · exact hc
  · rcases h with h | h
    · exact absurd h hrunning
    · exact absurd h hdone

theorem smooth_idle {x : Session} {phase : Phase} (h : x.phase = .running ∨ x.phase = .done)
    (hphase : phase = .running ∨ phase = .done) : Smooth x { x with phase } := by
  have hshows : ∀ c, Shows x c → c.gate < x.decided := fun c hc => shows_idle h hc
  refine ⟨rfl, fun c hc => Or.inl (hshows c hc), ?_⟩
  rintro p (hp | hp)
  · rcases hphase with rfl | rfl <;> cases hp
  · rcases hphase with rfl | rfl <;> cases hp

theorem smooth_goOn (x : Session) : Smooth x (goOn x) := by
  unfold goOn
  split_ifs with hdone
  · exact smooth_idle (Or.inr hdone) (Or.inl rfl)
  · exact smooth_refl x

theorem smooth_finish (x : Session) : Smooth x (finish x) := by
  unfold finish
  split_ifs with hrunning
  · exact smooth_idle (Or.inl hrunning) (Or.inr rfl)
  · exact smooth_refl x

theorem smooth_fail (x : Session) : Smooth x (fail x) := by
  have hnone : ∀ p, ¬ At (fail x) p := by
    rintro p (hp | hp)
    · cases hp
    · cases hp
  refine ⟨rfl, fun c hc => ?_, fun p hp => absurd hp (hnone p)⟩
  rcases Nat.lt_or_eq_of_le (shows_decided hc) with hlt | heq
  · exact Or.inl hlt
  · exact Or.inr ⟨heq, by simp [fail], by simp [fail], fun p hp => absurd hp (hnone p)⟩

theorem smooth_suspend (x : Session) : Smooth x (suspend x) := by
  unfold suspend
  split
  · rename_i p hphase
    have hat : ∀ q, At { x with phase := .waiting p } q → At x q := by
      rintro q (hq | hq)
      · cases hq
      · cases hq
        exact Or.inl hphase
    refine ⟨rfl, fun c hc => hc.imp_right ?_, hat⟩
    rintro ⟨heq, -, -, hcall⟩
    exact ⟨heq, by simp, by simp, fun q hq => hcall q (hat q hq)⟩
  · exact smooth_refl x

theorem smooth_resumed (x : Session) : Smooth x (resumed x) := by
  refine ⟨rfl, fun c hc => Or.inl (Nat.lt_succ_of_le (shows_decided hc)), ?_⟩
  rintro p (hp | hp)
  · cases hp
  · cases hp

theorem inv_update {s : State} (h : Inv s) (P : Session → Prop) [DecidablePred P] {f : Session → Session}
    (hf : ∀ x, Smooth x (f x)) : Inv { s with sessions := updateWhere P f s.sessions } := by
  have hmem : ∀ x ∈ s.sessions, ∃ y ∈ updateWhere P f s.sessions, y.id = x.id ∧ ∀ c, Shows x c → Shows y c := by
    intro x hx
    refine ⟨_, mem_updateWhere.mpr ⟨x, hx, rfl⟩, ?_⟩
    split_ifs
    · exact ⟨(hf x).id, (hf x).shows⟩
    · exact ⟨rfl, fun _ hc => hc⟩
  refine ⟨(keyed_updateWhere fun x _ => (hf x).id).mpr h.keyed, h.proposedKeyed, fun c hc => ?_, h.names, ?_,
    h.decisions⟩
  · obtain ⟨x, hx, hid, hshows⟩ := h.cards c hc
    obtain ⟨y, hy, hyid, hkeeps⟩ := hmem x hx
    exact ⟨y, hy, hyid.trans hid, hkeeps c hshows⟩
  · intro y hy p hp a ha
    obtain ⟨x, hx, rfl⟩ := mem_updateWhere.mp hy
    split_ifs at hp ⊢
    · rw [(hf x).id]
      exact h.owns x hx p ((hf x).keeps p hp) a ha
    · exact h.owns x hx p hp a ha

theorem submit_eq_some {x : Session} {call : Call} {id a : Id} {rows rows' : List Proposed} (hk : Keyed Proposed.id rows)
    (h : submit x call id rows = some (a, rows')) :
    Keyed Proposed.id rows' ∧ (∀ r ∈ rows, r ∈ rows') ∧ ∃ r ∈ rows', r.id = a ∧ r.session = x.id := by
  unfold submit at h
  split at h
  · rename_i r hfind
    cases h
    have hmem := List.mem_of_find?_eq_some hfind
    have hkey := List.find?_some hfind
    simp only [decide_eq_true_eq] at hkey
    exact ⟨hk, fun _ hr => hr, r, hmem, rfl, hkey.1⟩
  · split_ifs at h with hold
    cases h
    refine ⟨keyed_append.mpr ⟨hk, by simp [Keyed], ?_⟩, fun r hr => List.mem_append_left _ hr, ?_⟩
    · intro r hr r' hr'
      rw [List.mem_singleton.mp hr']
      exact fun heq => hold ⟨r, hr, heq⟩
    · exact ⟨_, List.mem_append_right _ (List.mem_singleton_self _), rfl, rfl⟩

theorem names_mono {rows rows' : List Proposed} (h : ∀ r ∈ rows, ∃ r' ∈ rows', r'.id = r.id ∧ r'.session = r.session)
    {c : Card} (hc : Names rows c) : Names rows' c := by
  unfold Names at hc ⊢
  cases hb : c.button with
  | agent sessionId => simpa [hb] using hc
  | adjustment a =>
    rw [hb] at hc
    obtain ⟨r, hr, hid, hs⟩ := hc
    obtain ⟨r', hr', hid', hs'⟩ := h r hr
    exact ⟨r', hr', hid'.trans hid, hs'.trans hs⟩

theorem inv_proposed {s : State} (h : Inv s) {rows : List Proposed} (hk : Keyed Proposed.id rows)
    (hrows : ∀ r ∈ s.proposed, ∃ r' ∈ rows, r'.id = r.id ∧ r'.session = r.session) : Inv { s with proposed := rows } := by
  refine ⟨h.keyed, hk, h.cards, fun c hc => names_mono hrows (h.names c hc), fun x hx p hp a ha => ?_, h.decisions⟩
  obtain ⟨r, hr, hid, hs⟩ := h.owns x hx p hp a ha
  obtain ⟨r', hr', hid', hs'⟩ := hrows r hr
  exact ⟨r', hr', hid'.trans hid, hs'.trans hs⟩

theorem at_opened {p q : Pending} {raised : Bool} {x : Session} (h : At (opened p raised x) q) : q = p := by
  unfold At opened at h
  cases raised with
  | true => simp at h
  | false => simpa [eq_comm] using h

theorem inv_openGate {s : State} (h : Inv s) {x : Session} (hx : x ∈ s.sessions) (hrunning : x.phase = .running)
    {p : Pending} {button : Button} {sent : Sent} (howns : Owns s.proposed x p)
    (hnames : ∀ c : Card, c.button = button → c.session = x.id → Names s.proposed c) :
    Inv (openGate x p button sent s) := by
  have hnew : opened p sent.raised x ∈ (openGate x p button sent s).sessions :=
    mem_updateWhere.mpr ⟨x, hx, if_pos rfl⟩
  refine ⟨(keyed_updateWhere fun y _ => by rfl).mpr h.keyed, h.proposedKeyed, fun c hc => ?_, fun c hc => ?_, ?_, ?_⟩
  · rcases List.mem_append.mp hc with hc | hc
    · obtain ⟨y, hy, hid, hshows⟩ := h.cards c hc
      by_cases heq : y.id = x.id
      · obtain rfl := h.keyed.eq_of_key hy hx heq
        have hlt : c.gate < y.decided := shows_idle (Or.inl hrunning) hshows
        exact ⟨_, hnew, hid, Or.inl hlt⟩
      · exact ⟨y, mem_updateWhere.mpr ⟨y, hy, if_neg heq⟩, hid, hshows⟩
    · obtain ⟨shown, -, rfl⟩ := List.mem_map.mp hc
      refine ⟨_, hnew, rfl, Or.inr ⟨rfl, ?_, ?_, fun q hq => by rw [at_opened hq]⟩⟩
      · unfold opened
        cases sent.raised <;> simp
      · unfold opened
        cases sent.raised <;> simp
  · rcases List.mem_append.mp hc with hc | hc
    · exact h.names c hc
    · obtain ⟨shown, -, rfl⟩ := List.mem_map.mp hc
      exact hnames _ rfl rfl
  · intro y hy q hq
    obtain ⟨y', hy', rfl⟩ := mem_updateWhere.mp hy
    split_ifs at hq ⊢ with heq
    · rw [at_opened hq]
      obtain rfl := h.keyed.eq_of_key hy' hx heq
      exact howns
    · exact h.owns y' hy' q hq
  · intro c hc
    exact List.mem_append_left _ (h.decisions c hc)

theorem inv_gate {s : State} (h : Inv s) (sessionId : Id) (call : Call) (id : Id) (sent : Sent) :
    Inv (gate sessionId call id sent s) := by
  unfold gate
  cases hx : lookup Session.id sessionId s.sessions with
  | none => exact h
  | some x =>
    have hmem := mem_of_lookup hx
    by_cases hrunning : x.phase = .running
    · simp only [hrunning, ne_eq, not_true_eq_false, if_false]
      split_ifs
      · cases hsubmit : submit x call id s.proposed with
        | none => exact h
        | some r =>
          obtain ⟨hk, hsub, a, ha, hid, hs⟩ := submit_eq_some h.proposedKeyed hsubmit
          have hinv := inv_proposed h hk fun r hr => ⟨r, hsub r hr, rfl, rfl⟩
          refine inv_openGate hinv hmem hrunning ?_ ?_
          · rintro b hb
            cases hb
            exact ⟨a, ha, hid, hs⟩
          · intro c hb hc
            unfold Names
            rw [hb, hc]
            exact ⟨a, ha, hid, hs⟩
      · refine inv_openGate h hmem hrunning ?_ ?_
        · rintro b hb
          cases hb
        · intro c hb hc
          unfold Names
          rw [hb, hc]
    · simpa only [ne_eq, hrunning, not_false_eq_true, if_true] using h

theorem at_of_pendingOf {x : Session} {p : Pending} (h : pendingOf x = some p) : At x p := by
  unfold pendingOf at h
  split at h
  · cases h
    exact Or.inr ‹_›
  · cases h

theorem phase_of_pendingOf {x : Session} {p : Pending} (h : pendingOf x = some p) : x.phase = .waiting p := by
  unfold pendingOf at h
  split at h
  · cases h
    assumption
  · cases h

theorem inv_resend {s : State} (h : Inv s) {c : Card} (hc : c ∈ s.cards) : Inv (resend c s) := by
  unfold resend
  cases hb : c.button with
  | agent sessionId =>
    simp only
    cases hx : lookup Session.id sessionId s.sessions with
    | none => exact h
    | some x =>
      cases hp : pendingOf x with
      | none => simpa only [hp] using h
      | some p =>
        simp only [hp]
        have hphase := phase_of_pendingOf hp
        refine ⟨h.keyed, h.proposedKeyed, fun c' hc' => ?_, fun c' hc' => ?_, h.owns, fun c' hc' => ?_⟩
        · rcases List.mem_append.mp hc' with hc' | hc'
          · exact h.cards c' hc'
          · rw [List.mem_singleton.mp hc']
            refine ⟨x, mem_of_lookup hx, rfl, Or.inr ⟨rfl, by simp [hphase], by simp [hphase], fun q hq => ?_⟩⟩
            rcases hq with hq | hq
            · rw [hphase] at hq
              cases hq
            · rw [hphase] at hq
              cases hq
              rfl
        · rcases List.mem_append.mp hc' with hc' | hc'
          · exact h.names c' hc'
          · rw [List.mem_singleton.mp hc']
            simp only [Names]
            exact (key_of_lookup hx).symm
        · exact List.mem_append_left _ (h.decisions c' hc')
  | adjustment a =>
    simp only
    split_ifs
    · refine ⟨h.keyed, h.proposedKeyed, fun c' hc' => ?_, fun c' hc' => ?_, h.owns, fun c' hc' => ?_⟩
      · rcases List.mem_append.mp hc' with hc' | hc'
        · exact h.cards c' hc'
        · rw [List.mem_singleton.mp hc']
          exact h.cards c hc
      · rcases List.mem_append.mp hc' with hc' | hc'
        · exact h.names c' hc'
        · rw [List.mem_singleton.mp hc']
          have hnames := h.names c hc
          unfold Names at hnames ⊢
          rwa [hb] at hnames
      · exact List.mem_append_left _ (h.decisions c' hc')
    · exact h

theorem inv_resume {s : State} (h : Inv s) (c : Card) (runs : Bool) : Inv (resume c runs s) := by
  unfold resume
  split
  · exact h
  · have hinv := inv_update h (Awaits c) smooth_resumed
    exact ⟨hinv.keyed, hinv.proposedKeyed, hinv.cards, hinv.names, hinv.owns, hinv.decisions⟩

theorem inv_tap {s : State} (h : Inv s) {c : Card} (hc : c ∈ s.cards) (approve allowed : Bool) :
    Inv (tap c approve allowed s) := by
  unfold tap
  cases c.button with
  | agent sessionId => exact inv_resume h c _
  | adjustment a =>
    simp only
    split_ifs
    · have hinv : Inv { s with proposed := updateWhere (Decides c) (decided approve) s.proposed } := by
        refine inv_proposed h ((keyed_updateWhere fun r _ => by rfl).mpr h.proposedKeyed) fun r hr => ?_
        refine ⟨_, mem_updateWhere.mpr ⟨r, hr, rfl⟩, ?_⟩
        split_ifs
        · exact ⟨rfl, rfl⟩
        · exact ⟨rfl, rfl⟩
      refine ⟨hinv.keyed, hinv.proposedKeyed, hinv.cards, hinv.names, hinv.owns, fun c' hc' => ?_⟩
      rcases List.mem_append.mp hc' with hc' | hc'
      · exact h.decisions c' hc'
      · rw [List.mem_singleton.mp hc']
        exact hc
    · exact h

theorem inv_step {s : State} (h : Inv s) (c : Action) : Inv (step s c) := by
  cases c with
  | start id tenantId =>
    simp only [step]
    split_ifs with hold
    · exact h
    · have hnone : ∀ x ∈ s.sessions, x.id ≠ id := by
        rw [Bool.not_eq_true, Option.isSome_eq_false_iff, Option.isNone_iff_eq_none] at hold
        exact lookup_eq_none.mp hold
      refine ⟨keyed_append.mpr ⟨h.keyed, by simp [Keyed], fun x hx y hy => ?_⟩, h.proposedKeyed, fun c hc => ?_,
        h.names, fun x hx p hp => ?_, h.decisions⟩
      · rw [List.mem_singleton.mp hy]
        exact hnone x hx
      · obtain ⟨x, hx, hrest⟩ := h.cards c hc
        exact ⟨x, List.mem_append_left _ hx, hrest⟩
      · rcases List.mem_append.mp hx with hx | hx
        · exact h.owns x hx p hp
        · rw [List.mem_singleton.mp hx] at hp
          rcases hp with hp | hp
          · cases hp
          · cases hp
  | goOn id => exact inv_update h _ smooth_goOn
  | finish id => exact inv_update h _ smooth_finish
  | fail id => exact inv_update h _ smooth_fail
  | gate id call adjustmentId sent => exact inv_gate h id call adjustmentId sent
  | suspend id => exact inv_update h _ smooth_suspend
  | resend i =>
    simp only [step]
    cases hc : s.cards[i]? with
    | none => exact h
    | some c => exact inv_resend h (List.mem_of_getElem? hc)
  | tap i approve allowed =>
    simp only [step]
    cases hc : s.cards[i]? with
    | none => exact h
    | some c =>
      simp only
      split_ifs
      · exact inv_tap h (List.mem_of_getElem? hc) approve allowed
      · exact h
  | feed i =>
    simp only [step]
    cases hc : s.decisions[i]? with
    | none => exact h
    | some c =>
      have hinv : Inv { s with decisions := s.decisions.eraseIdx i } :=
        ⟨h.keyed, h.proposedKeyed, h.cards, h.names, h.owns, fun c hc => h.decisions c (List.mem_of_mem_eraseIdx hc)⟩
      exact inv_resume hinv c true

/-! ### What is approved -/

theorem session_of_awaits {s : State} (h : Inv s) {c : Card} (hc : c ∈ s.cards) {x : Session} (hx : x ∈ s.sessions)
    (ha : Awaits c x) : x.id = c.session := by
  obtain ⟨-, p, hp, hbutton⟩ := ha
  have hnames := h.names c hc
  unfold Names at hnames
  cases hb : c.button with
  | agent sessionId =>
    rw [hb] at hnames hbutton
    exact hbutton.trans hnames
  | adjustment a =>
    rw [hb] at hnames hbutton
    obtain ⟨r, hr, hid, hs⟩ := hnames
    obtain ⟨r', hr', hid', hs'⟩ := h.owns x hx p (at_of_pendingOf hp) a hbutton
    obtain rfl := h.proposedKeyed.eq_of_key hr hr' (hid.trans hid'.symm)
    exact hs'.symm.trans hs

theorem call_of_awaits {s : State} (h : Inv s) {c : Card} (hc : c ∈ s.cards) {x : Session} (hx : x ∈ s.sessions)
    (ha : Awaits c x) {p : Pending} (hp : pendingOf x = some p) (hfresh : ¬ Decided s c) : c.call = p.call := by
  obtain ⟨y, hy, hid, hshows⟩ := h.cards c hc
  obtain rfl := h.keyed.eq_of_key hy hx (hid.trans (session_of_awaits h hc hx ha).symm)
  rcases hshows with hlt | ⟨-, -, -, hcall⟩
  · exact absurd ⟨y, hy, hid, hlt⟩ hfresh
  · exact (hcall p (at_of_pendingOf hp)).symm

theorem bound_append {s : State} {a : Approval} :
    Bound { s with approvals := s.approvals ++ [a] } ↔ Bound s ∧ a.card.call = a.call ∧ a.stale = false := by
  simp only [Bound, List.forall_mem_append, List.forall_mem_singleton]

theorem bound_resume_iff {s : State} (h : Inv s) {c : Card} (hc : c ∈ s.cards) (runs : Bool) :
    Bound (resume c runs s) ↔ Bound s ∧ (runs = true → FreshCard s c) := by
  unfold resume
  cases hfind : s.sessions.find? fun x => Awaits c x with
  | none =>
    have hnone : ∀ x ∈ s.sessions, ¬ Awaits c x := by simpa using hfind
    have hfresh : FreshCard s c := fun ⟨x, hx, ha⟩ => absurd ha (hnone x hx)
    simp [hfresh]
  | some x =>
    have hx := List.mem_of_find?_eq_some hfind
    have ha : Awaits c x := by simpa using List.find?_some hfind
    obtain ⟨-, p, hp, -⟩ := id ha
    have hp : pendingOf x = some p := hp
    have hfresh : FreshCard s c ↔ ¬ Decided s c := ⟨fun hf => hf ⟨x, hx, ha⟩, fun hd _ => hd⟩
    have happend := bound_append (s := s) (a := { card := c, call := p.call, stale := Decided s c })
    simp only [Option.bind_some, hp, hfresh]
    cases runs with
    | false =>
      simp only [Bool.false_eq_true, if_false, false_imp_iff, and_true]
      exact Iff.rfl
    | true =>
      simp only [if_true, true_imp_iff]
      refine Iff.trans happend (and_congr_right fun _ => ?_)
      simp only [decide_eq_false_iff_not]
      exact ⟨fun hboth => hboth.2, fun hd => ⟨call_of_awaits h hc hx ha hp hd, hd⟩⟩

theorem bound_step_iff {s : State} (h : Inv s) (a : Action) : Bound (step s a) ↔ Bound s ∧ Fresh s a := by
  have hsame : ∀ s', s'.approvals = s.approvals → (Bound s' ↔ Bound s ∧ True) := by
    intro s' heq
    simp only [Bound, heq, and_true]
  cases a with
  | start id tenantId =>
    refine hsame _ ?_
    simp only [step]
    split_ifs <;> rfl
  | goOn id => exact hsame _ rfl
  | finish id => exact hsame _ rfl
  | fail id => exact hsame _ rfl
  | gate id call adjustmentId sent =>
    refine hsame _ ?_
    simp only [step, gate]
    split
    · rfl
    · split_ifs
      · rfl
      · split <;> rfl
      · rfl
  | suspend id => exact hsame _ rfl
  | resend i =>
    refine hsame _ ?_
    simp only [step, resend]
    split
    · rfl
    · split
      · split
        · rfl
        · split <;> rfl
      · split_ifs <;> rfl
  | tap i approve allowed =>
    simp only [step, Fresh]
    cases hc : s.cards[i]? with
    | none => simp
    | some c =>
      have hmem := List.mem_of_getElem? hc
      cases hshown : c.shown with
      | false => simp [hshown]
      | true =>
        simp only [if_true, Option.mem_def, Option.some.injEq, forall_eq', hshown, true_and]
        unfold tap
        cases hb : c.button with
        | agent sessionId =>
          refine (bound_resume_iff h hmem (approve && allowed)).trans ?_
          simp [Button.ofAgent]
        | adjustment a =>
          simp only [Button.ofAgent, Bool.false_eq_true, false_and, false_imp_iff]
          refine hsame _ ?_
          split_ifs <;> rfl
  | feed i =>
    simp only [step, Fresh]
    cases hc : s.decisions[i]? with
    | none => simp
    | some c =>
      have hinv : Inv { s with decisions := s.decisions.eraseIdx i } :=
        ⟨h.keyed, h.proposedKeyed, h.cards, h.names, h.owns, fun c hc => h.decisions c (List.mem_of_mem_eraseIdx hc)⟩
      refine (bound_resume_iff hinv (h.decisions c (List.mem_of_getElem? hc)) true).trans ?_
      simp only [true_imp_iff, Option.mem_def, Option.some.injEq, forall_eq']
      exact Iff.rfl

theorem inv_init : Inv {} := by
  refine ⟨by simp [Keyed], by simp [Keyed], ?_, ?_, ?_, ?_⟩
  · simp
  · simp
  · simp
  · simp

/-- **A tap approves what its card showed**, in every run, if and only if no card of a decided call is tapped while
its session waits again. -/
theorem bound_iff (cs : List Action) : Bound (run step {} cs) ↔ Along step Fresh {} cs := by
  have hrun : ∀ s, Inv s → (Bound (run step s cs) ↔ Bound s ∧ Along step Fresh s cs) := by
    induction cs with
    | nil => simp
    | cons c cs ih =>
      intro s h
      rw [run_cons, along_cons, ih _ (inv_step h c), bound_step_iff h c, and_assoc]
  rw [hrun {} inv_init]
  simp [Bound]

/-- The owner approves a message to one customer, and the session comes to one for another. -/
def twoMessages : List Action :=
  let message (callId to_ : String) : Call := { callId, name := "send_whatsapp_message", args := to_ }
  [.start "session" "shop", .gate "session" (message "1" "first customer") "" {}, .suspend "session",
    .tap 0 true true, .gate "session" (message "2" "second customer") "" {}, .suspend "session"]

/-- A second tap on the first card approves the message to the other customer. -/
theorem twoMessages_unbound : ¬ ∀ cs, Bound (run step {} cs) := by
  intro h
  have hbound := h (twoMessages ++ [.tap 0 true true])
  revert hbound
  decide

end Smara.Server.Gates
