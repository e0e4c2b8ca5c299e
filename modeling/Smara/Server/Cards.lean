import Smara.Lib.Machine
import Smara.Lib.Workers
import Smara.Server.Channel

/-! # Cards that wait for the owner

A card that could not be passed to the owner is recorded as held, and one whose receipt says so as failed. When the
owner can be reached again all of these are marked as sent again, and are then sent one after the other.

* `step`: cards are sent, receipts come, cards are sent again, decisions are asked for and made, in any order.
* `Kept`: each card that waits is held, failed, or still to be sent by a call.
* `Gentle`: no call that breaks off leaves a card whose decision is pending.
* `cards_kept`: in a run of such calls no card is lost. -/

namespace Smara.Server.Cards

open Lib.Machine Lib.Table Lib.Workers Server.Schema Server.Channel

/-- What the owner decides: about an obligation that is `WAITING_OWNER_APPROVAL`, an adjustment that is `PENDING` or
a session that is `WAITING_APPROVAL`. -/
inductive Decision
  | obligation (id : Id)
  | adjustment (id : Id)
  | session (id : Id)
  deriving DecidableEq

def decisionOf (m : OutboundMessage) : Option Decision :=
  match m.kind with
  | .ownerReminderCard => m.obligationId.map .obligation
  | .ownerClaimCard => m.adjustmentId.map .adjustment
  | .ownerAgentCard => m.agentSessionId.map .session
  | _ => none

def Waits (m : OutboundMessage) : Prop := m.status = .held ∨ m.status = .failed

instance (m : OutboundMessage) : Decidable (Waits m) := inferInstanceAs (Decidable (_ ∨ _))

/-- A call of `resend_undelivered` at work. -/
structure Resend where
  channel : Channel
  /-- the cards that it has marked and not yet sent -/
  cards : List OutboundMessage

structure State where
  rows : List OutboundMessage := []
  /-- the decisions that are pending -/
  pending : List Decision := []
  resends : List Resend := []
  /-- the cards that were held or failed, whose decision has been pending ever since, and which have not been
  passed on since; kept for the statements only -/
  owed : List OutboundMessage := []

def Asked (pending : List Decision) (m : OutboundMessage) : Prop := ∃ d ∈ decisionOf m, d ∈ pending

instance (pending : List Decision) (m : OutboundMessage) : Decidable (Asked pending m) :=
  inferInstanceAs (Decidable (∃ _ ∈ _, _))

/-- The cards that are owed, after a step. -/
def refresh (s : State) : State :=
  { s with
    owed := (s.owed.filter fun m => Asked s.pending m) ++ s.rows.filter fun m => Waits m ∧ Asked s.pending m }

/-- **`resend_undelivered`**, up to the first send: the cards of the tenant are marked. -/
def resendUndelivered (tenantId : Id) (channel : Channel) (s : State) : State :=
  let again (m : OutboundMessage) : OutboundMessage := { m with status := .resent }
  { s with
    rows := updateWhere (fun m => m.tenantId = tenantId ∧ Waits m ∧ m.kind ∈ cardKinds) again s.rows
    resends := s.resends ++
      [{ channel, cards := s.rows.filter fun m => m.tenantId = tenantId ∧ Waits m ∧ m.kind ∈ cardKinds }] }

/-- **`flush_held`** of a tenant that has something held; a nudge changes no card. -/
def flushHeld (tenantId : Id) (r : Reach) (s : State) : State :=
  if r.quiet ∨ ¬ ∃ m ∈ s.rows, m.tenantId = tenantId ∧ m.status = .held then s
  else if pickChannel r none = .telegram then resendUndelivered tenantId .telegram s
  else if r.windowOpen then resendUndelivered tenantId .whatsapp s
  else s

/-- `_rebuild`: the card that is sent, if there is still something to decide. -/
def rebuild (pending : List Decision) (m : OutboundMessage) : Option OutboundMessage :=
  if m.kind = .ownerNote then m.payload.map fun _ => m
  else if Asked pending m then some m
  else none

/-- The next card of a call is sent. -/
def next (i : ℕ) (r : Reach) (uuid : String) (a : Answer) (s : State) : State :=
  match s.resends[i]? with
  | none => s
  | some j =>
    match j.cards with
    | [] => s
    | m :: cards =>
      match rebuild s.pending m with
      | none => { s with resends := s.resends.set i { j with cards } }
      | some card =>
        let sent := sendToOwner r (some j.channel) card uuid a s.rows
        { s with
          rows := sent.rows
          owed := if sent.passed then s.owed.filter fun m' => m'.msgId ≠ m.msgId else s.owed
          resends := s.resends.set i { j with cards := if sent.raised then [] else cards } }

def applyStatus (msgId : String) (status : MessageStatus) (errorCode : Option ℤ) (rows : List OutboundMessage) :
    List OutboundMessage :=
  let failed (m : OutboundMessage) : OutboundMessage := { m with status := .failed, errorCode }
  let next (m : OutboundMessage) : OutboundMessage := { m with status }
  match status with
  | .failed => updateWhere (fun m => m.msgId = msgId ∧ m.status ≠ .failed ∧ m.status ≠ .resent) failed rows
  | .sent => updateWhere (fun m => m.msgId = msgId ∧ m.status = .held) next rows
  | .delivered => updateWhere (fun m => m.msgId = msgId ∧ (m.status = .held ∨ m.status = .sent)) next rows
  | .read =>
    updateWhere (fun m => m.msgId = msgId ∧ (m.status = .held ∨ m.status = .sent ∨ m.status = .delivered)) next rows
  | _ => rows

/-- What may happen next; a call is given by its number. -/
inductive Action
  | ask (d : Decision)
  | decide (d : Decision)
  | sendToOwner (r : Reach) (reply : Option Channel) (card : OutboundMessage) (uuid : String) (a : Answer)
  | applyStatus (msgId : String) (status : MessageStatus) (errorCode : Option ℤ)
  | resendUndelivered (tenantId : Id) (channel : Channel)
  | flushHeld (tenantId : Id) (r : Reach)
  | next (resend : ℕ) (r : Reach) (uuid : String) (a : Answer)
  | crash (resend : ℕ)

def act (s : State) : Action → State
  | .ask d => { s with pending := d :: s.pending }
  | .decide d => { s with pending := s.pending.filter (· ≠ d) }
  | .sendToOwner r reply card uuid a => { s with rows := (Channel.sendToOwner r reply card uuid a s.rows).rows }
  | .applyStatus msgId status errorCode => { s with rows := applyStatus msgId status errorCode s.rows }
  | .resendUndelivered tenantId channel => resendUndelivered tenantId channel s
  | .flushHeld tenantId r => flushHeld tenantId r s
  | .next i r uuid a => next i r uuid a s
  | .crash i =>
    match s.resends[i]? with
    | none => s
    | some j => { s with resends := s.resends.set i { j with cards := [] } }

def step (s : State) (c : Action) : State := refresh (act s c)

def holds (s : State) : List OutboundMessage := s.resends.flatMap Resend.cards

/-- **No card is lost**: one that is owed is held, failed, or still to be sent by a call that goes on. -/
def Kept (s : State) : Prop :=
  ∀ m ∈ s.owed, (∃ row ∈ s.rows, row.msgId = m.msgId ∧ Waits row) ∨ ∃ card ∈ holds s, card.msgId = m.msgId

instance (s : State) : Decidable (Kept s) := inferInstanceAs (Decidable (∀ _ ∈ _, _))

def NoneOwed (s : State) (cards : List OutboundMessage) : Prop :=
  ∀ card ∈ cards, ∀ m ∈ s.owed, m.msgId ≠ card.msgId

instance (s : State) (cards : List OutboundMessage) : Decidable (NoneOwed s cards) :=
  inferInstanceAs (Decidable (∀ _ ∈ _, _))

/-- What a send that raises leaves: the card itself, unless it was passed on, and those after it. -/
def leftBy (s : State) (i : ℕ) (r : Reach) (uuid : String) (a : Answer) : List OutboundMessage :=
  match s.resends[i]? with
  | none => []
  | some j =>
    match j.cards with
    | [] => []
    | m :: cards =>
      match rebuild s.pending m with
      | none => []
      | some card =>
        let sent := sendToOwner r (some j.channel) card uuid a s.rows
        if sent.raised then if sent.passed then cards else m :: cards else []

/-- **The calls that lose no card**: a call that breaks off, or one of whose sends raises, leaves no card that is
owed, and no receipt names a card that is held. -/
def Gentle (s : State) : Action → Prop
  | .next i r uuid a => NoneOwed s (leftBy s i r uuid a)
  | .crash i => ∀ j ∈ s.resends[i]?, NoneOwed s j.cards
  | .applyStatus msgId _ _ => ∀ row ∈ s.rows, row.msgId = msgId → row.status ≠ .held
  | _ => True

instance (s : State) : ∀ c, Decidable (Gentle s c)
  | .next _ _ _ _ => inferInstanceAs (Decidable (NoneOwed _ _))
  | .crash _ => inferInstanceAs (Decidable (∀ _ ∈ _, _))
  | .applyStatus _ _ _ => inferInstanceAs (Decidable (∀ _ ∈ _, _))
  | .ask _ => .isTrue trivial
  | .decide _ => .isTrue trivial
  | .sendToOwner _ _ _ _ _ => .isTrue trivial
  | .resendUndelivered _ _ => .isTrue trivial
  | .flushHeld _ _ => .isTrue trivial

/-! ### Rows -/

def Tracked (rows : List OutboundMessage) (m : OutboundMessage) : Prop :=
  ∃ row ∈ rows, row.msgId = m.msgId ∧ decisionOf row = decisionOf m

def Grown (rows rows' : List OutboundMessage) : Prop := ∀ row ∈ rows, Tracked rows' row

theorem Tracked.grown {rows rows' : List OutboundMessage} {m : OutboundMessage} (h : Tracked rows m)
    (hg : Grown rows rows') : Tracked rows' m := by
  obtain ⟨row, hrow, hid, hdecision⟩ := h
  obtain ⟨row', hrow', hid', hdecision'⟩ := hg row hrow
  exact ⟨row', hrow', hid'.trans hid, hdecision'.trans hdecision⟩

theorem grown_update {rows : List OutboundMessage} {p : OutboundMessage → Prop} [DecidablePred p]
    {f : OutboundMessage → OutboundMessage} (hf : ∀ m, (f m).msgId = m.msgId ∧ decisionOf (f m) = decisionOf m) :
    Grown rows (updateWhere p f rows) := by
  intro row hrow
  refine ⟨_, mem_updateWhere.mpr ⟨row, hrow, rfl⟩, ?_⟩
  split_ifs
  · exact hf row
  · exact ⟨rfl, rfl⟩

theorem keyed_record {m : OutboundMessage} {rows : List OutboundMessage} (h : Keyed OutboundMessage.msgId rows) :
    Keyed OutboundMessage.msgId (record m rows) := by
  unfold record
  split_ifs with hold
  · exact h
  · refine keyed_append.mpr ⟨h, by simp [Keyed], ?_⟩
    intro row hrow m' hm' hid
    rw [List.mem_singleton.mp hm'] at hid
    exact hold ⟨row, hrow, hid⟩

theorem keyed_sendToOwner {r : Reach} {reply : Option Channel} {card : OutboundMessage} {uuid : String} {a : Answer}
    {rows : List OutboundMessage} (h : Keyed OutboundMessage.msgId rows) :
    Keyed OutboundMessage.msgId (Channel.sendToOwner r reply card uuid a rows).rows := by
  unfold Channel.sendToOwner sendWhatsapp hold
  split_ifs
  all_goals first
    | exact h
    | exact keyed_record h
    | skip
  all_goals
    split
    · exact h
    · try split_ifs
      all_goals first
        | exact h
        | exact keyed_record h

theorem grown_sendToOwner {r : Reach} {reply : Option Channel} {card : OutboundMessage} {uuid : String} {a : Answer}
    {rows : List OutboundMessage} : Grown rows (Channel.sendToOwner r reply card uuid a rows).rows :=
  fun row hrow => ⟨row, mem_sendToOwner hrow, rfl, rfl⟩

theorem applyStatus_rows (msgId : String) (status : MessageStatus) (errorCode : Option ℤ)
    {rows : List OutboundMessage} (h : Keyed OutboundMessage.msgId rows) :
    Keyed OutboundMessage.msgId (applyStatus msgId status errorCode rows) ∧
      Grown rows (applyStatus msgId status errorCode rows) := by
  unfold applyStatus
  cases status
  all_goals first
    | exact ⟨h, fun row hrow => ⟨row, hrow, rfl, rfl⟩⟩
    | exact ⟨(keyed_updateWhere fun m _ => by rfl).mpr h, grown_update fun m => ⟨rfl, rfl⟩⟩

theorem waits_applyStatus {msgId : String} {status : MessageStatus} {errorCode : Option ℤ}
    {rows : List OutboundMessage} (h : ∀ row ∈ rows, row.msgId = msgId → row.status ≠ .held) {row : OutboundMessage}
    (hrow : row ∈ rows) (hwaits : Waits row) :
    ∃ row' ∈ applyStatus msgId status errorCode rows, row'.msgId = row.msgId ∧ Waits row' := by
  have hfailed : row.msgId = msgId → row.status = .failed := fun hid => hwaits.resolve_left (h row hrow hid)
  have hkeep {p : OutboundMessage → Prop} [DecidablePred p] {f : OutboundMessage → OutboundMessage}
      (hp : ¬ p row) : ∃ row' ∈ updateWhere p f rows, row'.msgId = row.msgId ∧ Waits row' :=
    ⟨row, mem_updateWhere.mpr ⟨row, hrow, if_neg hp⟩, rfl, hwaits⟩
  unfold applyStatus
  cases status with
  | failed =>
    refine ⟨_, mem_updateWhere.mpr ⟨row, hrow, rfl⟩, ?_⟩
    split_ifs
    · exact ⟨rfl, Or.inr rfl⟩
    · exact ⟨rfl, hwaits⟩
  | held => exact ⟨row, hrow, rfl, hwaits⟩
  | resent => exact ⟨row, hrow, rfl, hwaits⟩
  | sent =>
    refine hkeep ?_
    rintro ⟨hid, hstatus⟩
    simp [hfailed hid] at hstatus
  | delivered =>
    refine hkeep ?_
    rintro ⟨hid, hstatus⟩
    simp [hfailed hid] at hstatus
  | read =>
    refine hkeep ?_
    rintro ⟨hid, hstatus⟩
    simp [hfailed hid] at hstatus

/-! ### The invariant -/

/-- What holds of a state before its owed cards are looked at again. -/
structure Sound (s : State) : Prop where
  keyed : Keyed OutboundMessage.msgId s.rows
  owed : ∀ m ∈ s.owed, Tracked s.rows m
  held : ∀ card ∈ holds s, Tracked s.rows card
  kept : ∀ m ∈ s.owed, Asked s.pending m →
    (∃ row ∈ s.rows, row.msgId = m.msgId ∧ Waits row) ∨ ∃ card ∈ holds s, card.msgId = m.msgId

/-- **The invariant**: the cards that are owed are kept, and their decisions are pending. -/
structure Inv (s : State) : Prop where
  sound : Sound s
  asked : ∀ m ∈ s.owed, Asked s.pending m

theorem Inv.kept {s : State} (h : Inv s) : Kept s := fun m hm => h.sound.kept m hm (h.asked m hm)

theorem inv_init : Inv {} := by
  refine ⟨⟨List.nodup_nil, ?_, ?_, ?_⟩, ?_⟩
  all_goals
    intro m hm
    cases hm

theorem inv_refresh {s : State} (h : Sound s) : Inv (refresh s) := by
  have hmem {m : OutboundMessage} (hm : m ∈ (refresh s).owed) :
      m ∈ s.owed ∧ Asked s.pending m ∨ m ∈ s.rows ∧ Waits m ∧ Asked s.pending m := by
    simpa [refresh] using hm
  refine ⟨⟨h.keyed, fun m hm => ?_, h.held, fun m hm hasked => ?_⟩, fun m hm => ?_⟩
  · rcases hmem hm with ⟨hm, -⟩ | ⟨hm, -⟩
    · exact h.owed m hm
    · exact ⟨m, hm, rfl, rfl⟩
  · rcases hmem hm with ⟨hm, -⟩ | ⟨hm, hwaits, -⟩
    · exact h.kept m hm hasked
    · exact Or.inl ⟨m, hm, rfl, hwaits⟩
  · rcases hmem hm with ⟨-, hasked⟩ | ⟨-, -, hasked⟩
    · exact hasked
    · exact hasked

theorem decision_eq {rows : List OutboundMessage} (hk : Keyed OutboundMessage.msgId rows) {m m' : OutboundMessage}
    (h : Tracked rows m) (h' : Tracked rows m') (hid : m.msgId = m'.msgId) : decisionOf m = decisionOf m' := by
  obtain ⟨row, hrow, hrid, hdecision⟩ := h
  obtain ⟨row', hrow', hrid', hdecision'⟩ := h'
  have hsame : row = row' := hk.eq_of_key hrow hrow' (hrid.trans (hid.trans hrid'.symm))
  rw [← hdecision, ← hdecision', hsame]

theorem sound_resend {s : State} (h : Inv s) (tenantId : Id) (channel : Channel) :
    Sound (resendUndelivered tenantId channel s) := by
  have hholds : holds (resendUndelivered tenantId channel s) = holds s ++
      s.rows.filter fun m => m.tenantId = tenantId ∧ Waits m ∧ m.kind ∈ cardKinds := by
    simp [holds, resendUndelivered]
  have hgrown : Grown s.rows (resendUndelivered tenantId channel s).rows := grown_update fun m => ⟨rfl, rfl⟩
  refine ⟨(keyed_updateWhere fun m _ => by rfl).mpr h.sound.keyed, fun m hm => (h.sound.owed m hm).grown hgrown,
    fun card hcard => ?_, fun m hm _ => ?_⟩
  · rw [hholds] at hcard
    rcases List.mem_append.mp hcard with hcard | hcard
    · exact (h.sound.held card hcard).grown hgrown
    · exact hgrown card (List.mem_of_mem_filter hcard)
  · rw [hholds]
    rcases h.kept m hm with ⟨row, hrow, hid, hwaits⟩ | ⟨card, hcard, hid⟩
    · by_cases htaken : row.tenantId = tenantId ∧ Waits row ∧ row.kind ∈ cardKinds
      · exact Or.inr ⟨row, List.mem_append_right _ (by simpa [hrow] using htaken), hid⟩
      · exact Or.inl ⟨row, mem_updateWhere.mpr ⟨row, hrow, if_neg htaken⟩, hid, hwaits⟩
    · exact Or.inr ⟨card, List.mem_append_left _ hcard, hid⟩

theorem sound_next {s : State} (h : Inv s) {i : ℕ} {j : Resend} {m : OutboundMessage} {cards : List OutboundMessage}
    (hj : s.resends[i]? = some j) (hcards : j.cards = m :: cards) {cards' : List OutboundMessage}
    (hsub : cards'.Sublist cards) {rows : List OutboundMessage} (hkeyed : Keyed OutboundMessage.msgId rows)
    (hrows : ∀ row ∈ s.rows, row ∈ rows) {owed : List OutboundMessage} (howed : ∀ m' ∈ owed, m' ∈ s.owed)
    (hleft : ∀ m' ∈ owed, ∀ card ∈ m :: cards, card.msgId = m'.msgId → ∃ card' ∈ cards', card'.msgId = m'.msgId) :
    Sound { s with rows, owed, resends := s.resends.set i { j with cards := cards' } } := by
  have hgrown : Grown s.rows rows := fun row hrow => ⟨row, hrows row hrow, rfl, rfl⟩
  obtain ⟨others, hold, hset⟩ := flatMap_set Resend.cards hj
  have hnew := hset { j with cards := cards' }
  rw [hcards] at hold
  have hold : (holds s).Perm ((m :: cards) ++ others) := hold
  refine ⟨hkeyed, fun m' hm' => (h.sound.owed m' (howed m' hm')).grown hgrown, fun card hcard => ?_,
    fun m' hm' _ => ?_⟩
  · refine Tracked.grown (h.sound.held card (hold.symm.subset ?_)) hgrown
    rcases List.mem_append.mp (hnew.subset hcard) with hcard | hcard
    · exact List.mem_append_left _ (List.mem_cons_of_mem _ (hsub.subset hcard))
    · exact List.mem_append_right _ hcard
  · rcases h.kept m' (howed m' hm') with ⟨row, hrow, hid, hwaits⟩ | ⟨card, hcard, hid⟩
    · exact Or.inl ⟨row, hrows row hrow, hid, hwaits⟩
    · right
      rcases List.mem_append.mp (hold.subset hcard) with hcard | hcard
      · obtain ⟨card', hcard', hid'⟩ := hleft m' hm' card hcard hid
        exact ⟨card', hnew.symm.subset (List.mem_append_left _ hcard'), hid'⟩
      · exact ⟨card, hnew.symm.subset (List.mem_append_right _ hcard), hid⟩

theorem not_owed_of_rebuild {s : State} (h : Inv s) {m m' : OutboundMessage} (hm : m ∈ holds s)
    (hrebuild : rebuild s.pending m = none) (hm' : m' ∈ s.owed) : m.msgId ≠ m'.msgId := by
  intro hid
  have hdecision := decision_eq h.sound.keyed (h.sound.held m hm) (h.sound.owed m' hm') hid
  have hasked : Asked s.pending m := by
    unfold Asked
    rw [hdecision]
    exact h.asked m' hm'
  unfold rebuild at hrebuild
  split_ifs at hrebuild with hnote
  obtain ⟨d, hd, -⟩ := hasked
  simp [decisionOf, hnote] at hd

theorem sound_next_step {s : State} (h : Inv s) {i : ℕ} {r : Reach} {uuid : String} {a : Answer}
    (hc : NoneOwed s (leftBy s i r uuid a)) : Sound (next i r uuid a s) := by
  unfold next
  cases hj : s.resends[i]? with
  | none => exact h.sound
  | some j =>
    cases hcards : j.cards with
    | nil =>
      simp only [hcards]
      exact h.sound
    | cons m cards =>
      have hm : m ∈ holds s :=
        List.mem_flatMap.mpr ⟨j, List.mem_of_getElem? hj, by rw [hcards]; exact List.mem_cons_self⟩
      cases hrebuild : rebuild s.pending m with
      | none =>
        simp only [hcards, hrebuild]
        refine sound_next h hj hcards (List.Sublist.refl _) h.sound.keyed (fun _ => id) (fun _ => id) ?_
        intro m' hm' card hcard hid
        rcases List.mem_cons.mp hcard with rfl | hcard
        · exact absurd hid (not_owed_of_rebuild h hm hrebuild hm')
        · exact ⟨card, hcard, hid⟩
      | some card =>
        simp only [leftBy, hj, hcards, hrebuild] at hc
        simp only [hcards, hrebuild]
        have hrows : ∀ row ∈ s.rows, row ∈ (Channel.sendToOwner r (some j.channel) card uuid a s.rows).rows :=
          fun row hrow => mem_sendToOwner hrow
        have hkeyed : Keyed OutboundMessage.msgId (Channel.sendToOwner r (some j.channel) card uuid a s.rows).rows :=
          keyed_sendToOwner h.sound.keyed
        have hpassed : (Channel.sendToOwner r (some j.channel) card uuid a s.rows).raised = false →
            (Channel.sendToOwner r (some j.channel) card uuid a s.rows).passed = true := passed_of_reply
        generalize Channel.sendToOwner r (some j.channel) card uuid a s.rows = sent at hc hrows hkeyed hpassed ⊢
        have howed : ∀ m' ∈ (if sent.passed then s.owed.filter fun m' => m'.msgId ≠ m.msgId else s.owed),
            m' ∈ s.owed ∧ (sent.passed = true → m'.msgId ≠ m.msgId) := by
          intro m' hm'
          split_ifs at hm' with hp
          · rw [List.mem_filter] at hm'
            exact ⟨hm'.1, fun _ => by simpa using hm'.2⟩
          · exact ⟨hm', fun hp' => absurd hp' hp⟩
        refine sound_next h hj hcards ?_ hkeyed hrows (fun m' hm' => (howed m' hm').1) ?_
        · split_ifs
          · exact List.nil_sublist _
          · exact List.Sublist.refl _
        · intro m' hm' card' hcard' hid
          obtain ⟨hm', hne⟩ := howed m' hm'
          cases hraised : sent.raised with
          | false =>
            rcases List.mem_cons.mp hcard' with rfl | hcard'
            · exact absurd hid.symm (hne (hpassed hraised))
            · exact ⟨card', hcard', hid⟩
          | true =>
            rw [hraised] at hc
            exfalso
            cases hp : sent.passed with
            | true =>
              simp only [hp, if_true] at hc
              rcases List.mem_cons.mp hcard' with rfl | hcard'
              · exact hne hp hid.symm
              · exact hc card' hcard' m' hm' hid.symm
            | false =>
              simp only [hp, if_true, Bool.false_eq_true, if_false] at hc
              exact hc card' hcard' m' hm' hid.symm

theorem sound_crash {s : State} (h : Inv s) {i : ℕ} (hc : Gentle s (.crash i)) : Sound (act s (.crash i)) := by
  simp only [act]
  cases hj : s.resends[i]? with
  | none => exact h.sound
  | some j =>
    have hnone : NoneOwed s j.cards := hc j hj
    obtain ⟨others, hold, hset⟩ := flatMap_set Resend.cards hj
    have hnew := hset { j with cards := [] }
    have hold : (holds s).Perm (j.cards ++ others) := hold
    refine ⟨h.sound.keyed, h.sound.owed, fun card hcard => h.sound.held card ?_, fun m hm _ => ?_⟩
    · exact hold.symm.subset (List.mem_append_right _ (hnew.subset hcard))
    · rcases h.kept m hm with hwaits | ⟨card, hcard, hid⟩
      · exact Or.inl hwaits
      · rcases List.mem_append.mp (hold.subset hcard) with hcard | hcard
        · exact absurd hid.symm (hnone card hcard m hm)
        · exact Or.inr ⟨card, hnew.symm.subset (List.mem_append_right _ hcard), hid⟩

theorem sound_act {s : State} {c : Action} (h : Inv s) (hc : Gentle s c) : Sound (act s c) := by
  cases c with
  | ask d => exact ⟨h.sound.keyed, h.sound.owed, h.sound.held, fun m hm _ => h.kept m hm⟩
  | decide d => exact ⟨h.sound.keyed, h.sound.owed, h.sound.held, fun m hm _ => h.kept m hm⟩
  | sendToOwner r reply card uuid a =>
    refine ⟨keyed_sendToOwner h.sound.keyed, fun m hm => (h.sound.owed m hm).grown grown_sendToOwner,
      fun m hm => (h.sound.held m hm).grown grown_sendToOwner, fun m hm _ => ?_⟩
    rcases h.kept m hm with ⟨row, hrow, hrest⟩ | hheld
    · exact Or.inl ⟨row, mem_sendToOwner hrow, hrest⟩
    · exact Or.inr hheld
  | applyStatus msgId status errorCode =>
    obtain ⟨hkeyed, hgrown⟩ := applyStatus_rows msgId status errorCode h.sound.keyed
    refine ⟨hkeyed, fun m hm => (h.sound.owed m hm).grown hgrown, fun m hm => (h.sound.held m hm).grown hgrown,
      fun m hm _ => ?_⟩
    rcases h.kept m hm with ⟨row, hrow, hid, hwaits⟩ | hheld
    · obtain ⟨row', hrow', hid', hwaits'⟩ := waits_applyStatus hc hrow hwaits
      exact Or.inl ⟨row', hrow', hid'.trans hid, hwaits'⟩
    · exact Or.inr hheld
  | resendUndelivered tenantId channel => exact sound_resend h tenantId channel
  | flushHeld tenantId r =>
    simp only [act, flushHeld]
    split_ifs
    · exact h.sound
    · exact sound_resend h tenantId _
    · exact sound_resend h tenantId _
    · exact h.sound
  | next i r uuid a => exact sound_next_step h hc
  | crash i => exact sound_crash h hc

theorem inv_step {s : State} {c : Action} (h : Inv s) (hc : Gentle s c) : Inv (step s c) :=
  inv_refresh (sound_act h hc)

/-- **No card is lost.** Over cards that are sent, receipts, cards that are sent again and decisions, in any order,
with sends that raise and calls that break off: if these leave no card that is owed, every card that was held or
failed, and whose decision has been pending since, is held or failed, or was passed on since, or is still to be sent
by a call that goes on. -/
theorem cards_kept (cs : List Action) (h : Along step Gentle {} cs) :
    ∀ pre post, cs = pre ++ post → Kept (run step {} pre) := by
  rintro pre post rfl
  have hstep : ∀ s c, Inv s → Gentle s c → Inv (step s c) := fun _ _ hi hg => inv_step hi hg
  have hinv : Inv (run step {} pre) := inv_run hstep inv_init (along_append.mp h).1
  exact hinv.kept

/-- Two cards are held at night, and the first is sent in the morning. -/
def morning : List Action :=
  let card (kind : Kind) (obligationId adjustmentId : Option Id) : OutboundMessage :=
    { msgId := "", tenantId := "shop", kind, toPhone := "91", obligationId, adjustmentId }
  [.ask (.obligation "invoice"), .ask (.adjustment "claim"),
    .sendToOwner { quiet := true } none (card .ownerReminderCard (some "invoice") none) "1" {},
    .sendToOwner { quiet := true } none (card .ownerClaimCard none (some "claim")) "2" {},
    .flushHeld "shop" {}, .next 0 {} "3" { msgId := some "wamid" }]

theorem morning_kept : Along step Gentle {} morning ∧
    ∀ pre post, morning = pre ++ post → Kept (run step {} pre) :=
  have h : Along step Gentle {} morning := by decide
  ⟨h, cards_kept morning h⟩

/-- The second send raises: its card is marked as sent again, and is never sent. -/
theorem card_lost : ¬ ∀ cs, Kept (run step {} cs) := by
  intro h
  have hkept := h (morning ++ [.next 0 {} "4" { sent := false }])
  revert hkept
  decide

end Smara.Server.Cards
