import Smara.Server.Schema

/-! # The way to the owner

Every message to the owner takes one way: Telegram if it is linked and was used last, WhatsApp else. What the owner
has not asked for is held at night, and while WhatsApp would not take it; the owner is then told, once, that
something waits.

* `pickChannel`: the channel of a message.
* `sendToOwner`: what is recorded of a message, and whether it was passed on. -/

namespace Smara.Server.Channel

open Server.Schema

inductive Channel
  | telegram | whatsapp
  deriving DecidableEq

/-- What the settings, the clock and the tenant say about the ways to the owner. -/
structure Reach where
  quiet : Bool := false
  /-- Telegram is linked -/
  telegram : Bool := false
  lastChannel : Option Channel := none
  windowOpen : Bool := true
  /-- there is a template for the owner -/
  ownerTemplate : Bool := false
  /-- the owner was told already that something waits -/
  nudged : Bool := false

def pickChannel (r : Reach) (reply : Option Channel) : Channel :=
  match reply with
  | some .telegram => if r.telegram then .telegram else .whatsapp
  | some .whatsapp => .whatsapp
  | none =>
    let last := r.lastChannel.getD (if r.telegram then .telegram else .whatsapp)
    if r.telegram ∧ (last = .telegram ∨ r.windowOpen = false) then .telegram else .whatsapp

/-- What the network and the database answer. -/
structure Answer where
  /-- the send has not raised -/
  sent : Bool := true
  /-- the id that WhatsApp gives to the message -/
  msgId : Option String := none
  /-- the record has not raised -/
  recorded : Bool := true

structure Result where
  rows : List OutboundMessage
  held : Bool := false
  /-- it was passed to Telegram or to WhatsApp -/
  passed : Bool := false
  raised : Bool := false

/-- A card that is held is recorded with a new id. -/
def hold (card : OutboundMessage) (uuid : String) (rows : List OutboundMessage) : List OutboundMessage :=
  let m : OutboundMessage :=
    { card with
      msgId := "held:" ++ uuid
      status := .held
      payload := if card.kind = .ownerNote then card.payload else none }
  record m rows

/-- `nudge`: it has raised. -/
def nudgeRaises (r : Reach) (a : Answer) : Bool := !r.nudged && !a.sent

/-- The message is passed to WhatsApp, and recorded. -/
def sendWhatsapp (card : OutboundMessage) (a : Answer) (rows : List OutboundMessage) : Result :=
  if a.sent then
    match a.msgId with
    | none => { rows, passed := true }
    | some msgId =>
      if a.recorded then
        let m : OutboundMessage := { card with msgId, status := .sent, payload := none }
        { rows := record m rows, passed := true }
      else { rows, passed := true, raised := true }
  else { rows, raised := true }

/-- **`send_to_owner`** of a message; its id and status are not looked at. -/
def sendToOwner (r : Reach) (reply : Option Channel) (card : OutboundMessage) (uuid : String) (a : Answer)
    (rows : List OutboundMessage) : Result :=
  if reply = none ∧ card.kind ∈ cardKinds ∧ r.quiet then
    if a.recorded then { rows := hold card uuid rows, held := true } else { rows, raised := true }
  else if pickChannel r reply = .telegram then
    if a.sent then { rows, passed := true } else { rows, raised := true }
  else if reply = none ∧ r.ownerTemplate ∧ r.windowOpen = false ∧ card.kind ∈ cardKinds then
    if a.recorded then { rows := hold card uuid rows, held := true, raised := nudgeRaises r a }
    else { rows, raised := true }
  else if reply = none ∧ r.ownerTemplate ∧ r.windowOpen = false ∧ card.kind = .ownerDigest then
    { rows, raised := nudgeRaises r a }
  else sendWhatsapp card a rows

theorem record_eq (m : OutboundMessage) (rows : List OutboundMessage) :
    record m rows = rows ∨ record m rows = rows ++ [m] := by
  unfold record
  split_ifs
  · exact Or.inl rfl
  · exact Or.inr rfl

theorem rows_sendToOwner (r : Reach) (reply : Option Channel) (card : OutboundMessage) (uuid : String) (a : Answer)
    (rows : List OutboundMessage) : ∃ new, (sendToOwner r reply card uuid a rows).rows = rows ++ new ∧
      ∀ m ∈ new, m.tenantId = card.tenantId ∧ m.toPhone = card.toPhone := by
  have hnone : ∃ new, rows = rows ++ new ∧ ∀ m ∈ new, m.tenantId = card.tenantId ∧ m.toPhone = card.toPhone :=
    ⟨[], by simp⟩
  have hrecord : ∀ m : OutboundMessage, m.tenantId = card.tenantId → m.toPhone = card.toPhone →
      ∃ new, record m rows = rows ++ new ∧ ∀ m ∈ new, m.tenantId = card.tenantId ∧ m.toPhone = card.toPhone := by
    intro m htenant hphone
    rcases record_eq m rows with heq | heq
    · rw [heq]
      exact hnone
    · exact ⟨[m], heq, by simp [htenant, hphone]⟩
  unfold sendToOwner sendWhatsapp hold
  split_ifs
  all_goals first
    | exact hnone
    | exact hrecord _ rfl rfl
    | skip
  all_goals
    split
    · exact hnone
    · try split_ifs
      all_goals first
        | exact hnone
        | exact hrecord _ rfl rfl

theorem mem_sendToOwner {r : Reach} {reply : Option Channel} {card m : OutboundMessage} {uuid : String} {a : Answer}
    {rows : List OutboundMessage} (h : m ∈ rows) : m ∈ (sendToOwner r reply card uuid a rows).rows := by
  obtain ⟨new, heq, -⟩ := rows_sendToOwner r reply card uuid a rows
  rw [heq]
  exact List.mem_append_left _ h

theorem passed_of_reply {r : Reach} {channel : Channel} {card : OutboundMessage} {uuid : String} {a : Answer}
    {rows : List OutboundMessage} (h : (sendToOwner r (some channel) card uuid a rows).raised = false) :
    (sendToOwner r (some channel) card uuid a rows).passed = true := by
  revert h
  unfold sendToOwner sendWhatsapp
  simp only [reduceCtorEq, false_and, if_false]
  split_ifs
  all_goals first
    | (simp; done)
    | (split
       · simp
       · try split_ifs
         all_goals simp)

end Smara.Server.Channel
