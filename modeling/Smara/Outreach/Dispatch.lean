import Mathlib.Algebra.Order.Group.Int
import Mathlib.Data.List.Flatten
import Mathlib.Data.List.Perm.Subperm
import Smara.Lib.Window
import Smara.Outreach.Schema

/-! # A reviewed email is dispatched at most once

The claim of a record takes it out of the drafts for good, so that one call of `send` holds it. Until that
call has given the email to Gmail, the record is being sent or uncertain, and nothing but the settling of
the same call takes it out of these states: a suppression does not, and a reading of Gmail finds the email
only after it was given.

* `Inv`: the invariant.
* `inv_step`: every step keeps it.
* `dispatched_once`: the main result. -/

namespace Smara.Outreach.Dispatch

open Lib.Machine Lib.Table Lib.Window Outreach.Schema
open TaskStore.Schema (Time)

variable {host : Host} {s : State} {rows : Records}

/-! ### Records -/

def headerOf (id : String) : String := "<smara-" ++ id ++ "@smara.local>"

theorem headerOf_injective {id id' : String} (h : headerOf id = headerOf id') : id = id' := by
  unfold headerOf at h
  have hlist := congrArg String.toList h
  simp only [String.toList_append, List.append_cancel_left_eq, List.append_cancel_right_eq] at hlist
  exact String.toList_injective hlist

def Has (rows : Records) (id : String) (Q : Record → Prop) : Prop := ∃ r ∈ rows, r.id = id ∧ Q r

def Claimed (r : Record) : Prop := r.state ≠ .draft

def Open (r : Record) : Prop := r.state = .sending ∨ r.state = .unknown

def Suppressed (r : Record) : Prop := r.state = .suppressed

/-- The senders of the records that were attempted, with the times. -/
def stamps (rows : Records) : List (String × Time) :=
  rows.filterMap fun r => match r.senderHash, r.attempted with
    | some k, some a => some (k, a)
    | _, _ => none

def Recent (x t : Time) : Prop := t - day ≤ x

instance : DecidableRel Recent := fun _ _ => inferInstanceAs (Decidable (_ ≤ _))

/-- What holds of the table at a time. -/
structure Sound (host : Host) (now : Time) (rows : Records) : Prop where
  keyed : Keyed Record.id rows
  recipients : Keyed (fun r => (r.workspace, r.recipientHash)) rows
  hashes : ∀ r ∈ rows, r.recipientHash = host.hash r.payload.recipient
  headers : ∀ r ∈ rows, r.payload.messageIdHeader = headerOf r.id
  drafts : ∀ r ∈ rows, r.state = .draft → r.attempted = none
  past : ∀ x ∈ stamps rows, x.2 ≤ now
  bounded : Bounded Recent host.dailyLimit (stamps rows)

/-- An update that leaves what identifies a record, and its stamp. -/
structure Keeps (f : Record → Record) : Prop where
  id : ∀ r, (f r).id = r.id
  project : ∀ r, ((f r).workspace, (f r).recipientHash) = (r.workspace, r.recipientHash)
  attempted : ∀ r, (f r).attempted = r.attempted
  senderHash : ∀ r, (f r).senderHash = r.senderHash

theorem stamps_updateWhere {p : Record → Prop} [DecidablePred p] {f : Record → Record} (hf : Keeps f) :
    stamps (updateWhere p f rows) = stamps rows := by
  unfold stamps updateWhere
  rw [List.filterMap_map]
  refine List.filterMap_congr fun r _ => ?_
  simp only [Function.comp_apply]
  split_ifs
  · rw [hf.attempted, hf.senderHash]
  · rfl

theorem sound_updateWhere {now : Time} (h : Sound host now rows) {p : Record → Prop} [DecidablePred p]
    {f : Record → Record} (hf : Keeps f)
    (hpayload : ∀ r ∈ rows, p r → (f r).payload.recipient = r.payload.recipient ∧
      (f r).payload.messageIdHeader = r.payload.messageIdHeader)
    (hclaimed : ∀ r ∈ rows, p r → (f r).state = .draft → r.state = .draft) :
    Sound host now (updateWhere p f rows) := by
  have hstamps : stamps (updateWhere p f rows) = stamps rows := stamps_updateWhere hf
  refine ⟨?_, ?_, ?_, ?_, ?_, hstamps ▸ h.past, hstamps ▸ h.bounded⟩
  · exact (keyed_updateWhere fun r _ => hf.id r).mpr h.keyed
  · exact (keyed_updateWhere fun r _ => hf.project r).mpr h.recipients
  · intro r' hr'
    obtain ⟨r, hr, rfl⟩ := mem_updateWhere.mp hr'
    split_ifs with hp
    · have hhash := congrArg Prod.snd (hf.project r)
      rw [(hpayload r hr hp).1]
      exact hhash.trans (h.hashes r hr)
    · exact h.hashes r hr
  · intro r' hr'
    obtain ⟨r, hr, rfl⟩ := mem_updateWhere.mp hr'
    split_ifs with hp
    · rw [(hpayload r hr hp).2, hf.id]
      exact h.headers r hr
    · exact h.headers r hr
  · intro r' hr'
    obtain ⟨r, hr, rfl⟩ := mem_updateWhere.mp hr'
    split_ifs with hp
    · intro hdraft
      rw [hf.attempted]
      exact h.drafts r hr (hclaimed r hr hp hdraft)
    · exact h.drafts r hr

theorem Has.updateWhere {id : String} {Q Q' : Record → Prop} (h : Has rows id Q) {p : Record → Prop}
    [DecidablePred p] {f : Record → Record} (hid : ∀ r, (f r).id = r.id)
    (hmoved : ∀ r ∈ rows, r.id = id → Q r → p r → Q' (f r)) (hsame : ∀ r, Q r → Q' r) :
    Has (updateWhere p f rows) id Q' := by
  obtain ⟨r, hr, hrid, hq⟩ := h
  refine ⟨_, mem_updateWhere.mpr ⟨r, hr, rfl⟩, ?_⟩
  split_ifs with hp
  · exact ⟨(hid r).trans hrid, hmoved r hr hrid hq hp⟩
  · exact ⟨hrid, hsame r hq⟩

theorem Has.eq (hkeyed : Keyed Record.id rows) {id : String} {Q Q' : Record → Prop} (h : Has rows id Q)
    (h' : Has rows id Q') : ∃ r, Q r ∧ Q' r := by
  obtain ⟨r, hr, hid, hq⟩ := h
  obtain ⟨r', hr', hid', hq'⟩ := h'
  obtain rfl := hkeyed.eq_of_key hr hr' (hid.trans hid'.symm)
  exact ⟨r, hq, hq'⟩

theorem Has.append {id : String} {Q : Record → Prop} (h : Has rows id Q) (rows' : Records) :
    Has (rows ++ rows') id Q := by
  obtain ⟨r, hr, hid, hq⟩ := h
  exact ⟨r, List.mem_append_left _ hr, hid, hq⟩

/-! ### Calls -/

/-- The record that a call has claimed and not settled. -/
def heldBy : Job → List String
  | .dispatch m => [m.id]
  | .settle id _ => [id]
  | _ => []

def MailOk (host : Host) (m : Mail) : Prop :=
  host.digest m.draft = m.contentHash ∧ m.draft.messageIdHeader = headerOf m.id

/-- What a call knows. -/
def JobOk (host : Host) (s : State) : Job → Prop
  | .edit id _ d => d.messageIdHeader = headerOf id ∧ Has s.rows id fun r => r.payload.recipient = d.recipient
  | .suppress _ => True
  | .claim id contentHash d _ => host.digest d = contentHash ∧ d.messageIdHeader = headerOf id
  | .dispatch m => MailOk host m ∧ m.id ∉ s.mailbox.map Mail.id ∧ Has s.rows m.id Open
  | .settle id o => (o.state ≠ .draft) ∧ Has s.rows id Claimed
  | .readBack id d _ => d.messageIdHeader = headerOf id

/-- What has happened outside of the table. -/
structure Told (host : Host) (s : State) : Prop where
  mails : ∀ m ∈ s.mailbox, MailOk host m ∧ Has s.rows m.id Claimed
  once : (s.mailbox.map Mail.id).Nodup
  suppressed : ∀ id, .suppress id ∈ s.log → Has s.rows id Suppressed
  order : s.log.Pairwise fun e e' => ∀ m, e' = .post m → e ≠ .suppress m.id

/-- **The invariant.** -/
structure Inv (host : Host) (s : State) : Prop where
  sound : Sound host s.now s.rows
  jobs : ∀ j ∈ s.jobs, JobOk host s j
  held : (s.jobs.flatMap heldBy).Nodup
  told : Told host s

/-- What a transaction leaves of the records that the calls know. -/
structure Moves (s : State) (rows : Records) : Prop where
  claimed : ∀ id, Has s.rows id Claimed → Has rows id Claimed
  suppressed : ∀ id, Has s.rows id Suppressed → Has rows id Suppressed
  recipient : ∀ id d, Has s.rows id (fun r => r.payload.recipient = d) → Has rows id fun r => r.payload.recipient = d
  opened : ∀ m, .dispatch m ∈ s.jobs → Has s.rows m.id Open → Has rows m.id Open

theorem Told.congr (h : Told host s) {s' : State} (hrows : s'.rows = s.rows) (hlog : s'.log = s.log) :
    Told host s' := by
  have hmailbox : s'.mailbox = s.mailbox := congrArg (List.filterMap Event.mail?) hlog
  refine ⟨?_, ?_, ?_, ?_⟩
  · rw [hmailbox, hrows]
    exact h.mails
  · rw [hmailbox]
    exact h.once
  · rw [hlog, hrows]
    exact h.suppressed
  · rw [hlog]
    exact h.order

theorem told_moves (h : Told host s) (hmoves : Moves s rows) : Told host { s with rows } := by
  refine ⟨fun m hm => ?_, h.once, fun id hid => ?_, h.order⟩
  · have hmail := h.mails m hm
    exact ⟨hmail.1, hmoves.claimed m.id hmail.2⟩
  · exact hmoves.suppressed id (h.suppressed id hid)

theorem jobOk_moves (hmoves : Moves s rows) {j : Job} (hj : j ∈ s.jobs) (hok : JobOk host s j) :
    JobOk host { s with rows } j := by
  cases j with
  | edit id contentHash d => exact ⟨hok.1, hmoves.recipient id _ hok.2⟩
  | suppress id => trivial
  | claim id contentHash d sender => exact hok
  | dispatch m => exact ⟨hok.1, hok.2.1, hmoves.opened m hj hok.2.2⟩
  | settle id o => exact ⟨hok.1, hmoves.claimed id hok.2⟩
  | readBack id d sender => exact hok

/-- **A transaction keeps the invariant** if it keeps the table sound and the records that the calls know. -/
theorem Inv.moves (h : Inv host s) (hsound : Sound host s.now rows) (hmoves : Moves s rows) :
    Inv host { s with rows } :=
  ⟨hsound, fun j hj => jobOk_moves hmoves hj (h.jobs j hj), h.held, told_moves h.told hmoves⟩

theorem moves_updateWhere {p : Record → Prop} [DecidablePred p] {f : Record → Record}
    (hid : ∀ r, (f r).id = r.id)
    (hrecipient : ∀ r, p r → r ∈ s.rows → (f r).payload.recipient = r.payload.recipient)
    (hclaimed : ∀ r, p r → (f r).state = .draft → r.state = .draft)
    (hsuppressed : ∀ r, p r → r.state = .suppressed → (f r).state = .suppressed)
    (hopen : ∀ m, .dispatch m ∈ s.jobs → ∀ r, r.id = m.id → Open r → p r → Open (f r)) :
    Moves s (updateWhere p f s.rows) := by
  refine ⟨fun id h => ?_, fun id h => ?_, fun id d h => ?_, fun m hm h => ?_⟩
  · exact h.updateWhere hid (fun r _ _ hq hp hdraft => hq (hclaimed r hp hdraft)) fun _ hq => hq
  · exact h.updateWhere hid (fun r _ _ hq hp => hsuppressed r hp hq) fun _ hq => hq
  · exact h.updateWhere hid (fun r hr _ hq hp => (hrecipient r hp hr).trans hq) fun _ hq => hq
  · exact h.updateWhere hid (fun r _ hrid hq hp => hopen m hm r hrid hq hp) fun _ hq => hq

theorem Inv.pass (h : Inv host s) (elapsed : ℕ) : Inv host (s.pass elapsed) := by
  refine ⟨?_, h.jobs, h.held, h.told.congr rfl rfl⟩
  have hpast : ∀ x ∈ stamps s.rows, x.2 ≤ s.now + elapsed := by
    intro x hx
    have hle : (x.2 : ℤ) ≤ s.now := h.sound.past x hx
    exact Int.le_trans hle (Int.le_add_of_nonneg_right (Int.natCast_nonneg elapsed))
  exact { h.sound with past := hpast }

theorem Inv.withJob (h : Inv host s) {j : Except String Job} (hok : ∀ j', j = .ok j' → JobOk host s j')
    (hheld : ∀ j', j = .ok j' → heldBy j' = []) : Inv host (s.withJob j) := by
  cases j with
  | error e => exact h
  | ok j =>
    have hj := hok j rfl
    refine ⟨h.sound, fun j' hj' => ?_, ?_, h.told.congr rfl rfl⟩
    · rcases List.mem_append.mp hj' with hj' | hj'
      · exact h.jobs j' hj'
      · rw [List.mem_singleton.mp hj']
        exact hj
    · have hflat : (s.jobs ++ [j]).flatMap heldBy = s.jobs.flatMap heldBy := by
        rw [List.flatMap_append, List.flatMap_singleton, hheld j rfl, List.append_nil]
      change ((s.jobs ++ [j]).flatMap heldBy).Nodup
      rw [hflat]
      exact h.held

theorem Inv.crash (h : Inv host s) (job : ℕ) : Inv host { s with jobs := s.jobs.eraseIdx job } := by
  have hsub := List.eraseIdx_sublist s.jobs job
  exact ⟨h.sound, fun j hj => h.jobs j (hsub.subset hj), h.held.sublist (hsub.flatMap _), h.told.congr rfl rfl⟩

/-! ### The transactions -/

theorem inv_recover (h : Inv host s) : Inv host { s with rows := recover s.now s.rows } := by
  have hkeeps : Keeps fun r => { r with
      state := .unknown, detail := "Dispatch interrupted; reconcile before any further action" } :=
    ⟨fun _ => rfl, fun _ => rfl, fun _ => rfl, fun _ => rfl⟩
  refine h.moves (sound_updateWhere h.sound hkeeps (fun _ _ _ => ⟨rfl, rfl⟩) fun _ _ _ => nofun) ?_
  refine moves_updateWhere (fun _ => rfl) (fun _ _ _ => rfl) (fun _ _ => nofun) ?_ fun _ _ _ _ _ _ => Or.inr rfl
  intro r hp hsuppressed
  rw [hsuppressed] at hp
  exact absurd hp.1 (by decide)

theorem inv_commitEdit (h : Inv host s) {id contentHash : String} {d : Draft}
    (hok : JobOk host s (.edit id contentHash d)) :
    Inv host { s with rows := commitEdit host id contentHash d s.rows } := by
  have hkeeps : Keeps fun r => { r with payload := d, contentHash := host.digest d } :=
    ⟨fun _ => rfl, fun _ => rfl, fun _ => rfl, fun _ => rfl⟩
  obtain ⟨hheader, r₀, hr₀, hid₀, hrecipient⟩ := hok
  have hpayload : ∀ r ∈ s.rows, r.id = id → d.recipient = r.payload.recipient ∧
      d.messageIdHeader = r.payload.messageIdHeader := by
    intro r hr hid
    obtain rfl := h.sound.keyed.eq_of_key hr hr₀ (hid.trans hid₀.symm)
    refine ⟨hrecipient.symm, ?_⟩
    rw [hheader, h.sound.headers r hr, hid]
  refine h.moves ?_ ?_
  · exact sound_updateWhere h.sound hkeeps (fun r hr hp => hpayload r hr hp.1) fun _ _ _ hdraft => hdraft
  · refine moves_updateWhere (fun _ => rfl) (fun r hp hr => (hpayload r hr hp.1).1) (fun _ _ hdraft => hdraft)
      (fun _ _ hsuppressed => hsuppressed) fun _ _ _ _ hopen _ => hopen

theorem sound_suppress {now : Time} (h : Sound host now rows) (id : String) : Sound host now (suppress id rows) := by
  have hkeeps : Keeps fun r => { r with state := .suppressed, detail := "Do not contact" } :=
    ⟨fun _ => rfl, fun _ => rfl, fun _ => rfl, fun _ => rfl⟩
  exact sound_updateWhere h hkeeps (fun _ _ _ => ⟨rfl, rfl⟩) fun _ _ _ => nofun

theorem moves_suppress (id : String) : Moves s (suppress id s.rows) := by
  refine moves_updateWhere (fun _ => rfl) (fun _ _ _ => rfl) (fun _ _ => nofun) (fun _ _ _ => rfl) ?_
  intro m _ r _ hopen hp
  rcases hopen with hstate | hstate
  · exact absurd hstate hp.2.1
  · exact absurd hstate hp.2.2

theorem inv_settle (h : Inv host s) {id : String} {o : Outcome} (hstate : o.state ≠ .draft)
    (hothers : id ∉ s.jobs.flatMap heldBy) : Inv host { s with rows := settle id o s.rows } := by
  have hkeeps : Keeps fun r => { r with
      state := o.state, detail := o.detail, messageId := o.messageId, threadId := o.threadId } :=
    ⟨fun _ => rfl, fun _ => rfl, fun _ => rfl, fun _ => rfl⟩
  refine h.moves ?_ ?_
  · exact sound_updateWhere h.sound hkeeps (fun _ _ _ => ⟨rfl, rfl⟩) fun _ _ _ hdraft => absurd hdraft hstate
  · refine moves_updateWhere (fun _ => rfl) (fun _ _ _ => rfl) (fun _ _ hdraft => absurd hdraft hstate) ?_ ?_
    · intro r hp hsuppressed
      rw [hsuppressed] at hp
      exact absurd hp.2 (by decide)
    · intro m hm r hid _ hp
      have hmem : m.id ∈ s.jobs.flatMap heldBy := List.mem_flatMap.mpr ⟨_, hm, List.mem_singleton.mpr rfl⟩
      exact absurd (hid.symm.trans hp.1 ▸ hmem) hothers

theorem inv_verify (h : Inv host s) {id messageId : String} {threadId : Option String}
    (hposted : id ∈ s.mailbox.map Mail.id) : Inv host { s with rows := verify id messageId threadId s.rows } := by
  have hkeeps : Keeps fun r => { r with
      state := .sentVerified
      messageId := some messageId
      threadId
      detail := "Verified in Gmail Sent; recipient delivery/reply is not established" } :=
    ⟨fun _ => rfl, fun _ => rfl, fun _ => rfl, fun _ => rfl⟩
  refine h.moves ?_ ?_
  · exact sound_updateWhere h.sound hkeeps (fun _ _ _ => ⟨rfl, rfl⟩) fun _ _ _ => nofun
  · refine moves_updateWhere (fun _ => rfl) (fun _ _ _ => rfl) (fun _ _ => nofun) ?_ ?_
    · intro r hp hsuppressed
      have huncertain := hp.2
      unfold Uncertain at huncertain
      rw [hsuppressed] at huncertain
      simp at huncertain
    · intro m hm r hid _ hp
      have hnew := (h.jobs _ hm).2.1
      exact absurd (hp.1.symm.trans hid ▸ hposted) hnew

/-! ### The claim of a record -/

/-- **The stamps that meet a condition** are those of the records whose stamp does. -/
theorem countP_stamps (k : String) (p : Time → Prop) [DecidablePred p] (rows : Records) :
    (stamps rows).countP (fun x => x.1 = k ∧ p x.2) =
      rows.countP fun r => r.senderHash = some k ∧ ∃ a ∈ r.attempted, p a := by
  unfold stamps
  rw [List.countP_filterMap]
  refine List.countP_congr fun r _ => ?_
  cases r.senderHash with
  | none => simp
  | some k' =>
    cases r.attempted with
    | none => simp
    | some a =>
      simp only [Option.some.injEq, Option.mem_some_iff, exists_eq_left', Option.map_some, Option.getD_some,
        decide_eq_true_eq]

theorem attempts_eq (k : String) (now : Time) (rows : Records) :
    attempts k now rows = (stamps rows).countP fun x => x.1 = k ∧ Recent x.2 now :=
  (countP_stamps k (Recent · now) rows).symm

theorem counted_stamps (k : String) (t : Time) (rows : Records) :
    (rows.countP fun r => r.senderHash = some k ∧ ∃ a ∈ r.attempted, t - day ≤ a ∧ a ≤ t) =
      counted Recent k t (stamps rows) := by
  simp only [and_comm (a := t - day ≤ _)]
  exact (countP_stamps k (fun a => a ≤ t ∧ Recent a t) rows).symm

theorem stamps_append (rows rows' : Records) : stamps (rows ++ rows') = stamps rows ++ stamps rows' :=
  List.filterMap_append

theorem stamps_cons_none {r : Record} (h : r.attempted = none) : stamps (r :: rows) = stamps rows := by
  refine List.filterMap_cons_none ?_
  rw [h]
  cases r.senderHash <;> rfl

/-- **The table with a record claimed**: its stamp is new. -/
theorem sound_claim {now later : Time} (h : Sound host now rows) (hlater : now ≤ later) {id contentHash k : String}
    {rows' : Records} (hclaim : claim host id contentHash k now later rows = .ok rows') :
    Sound host later rows' := by
  unfold claim at hclaim
  split_ifs at hclaim with hfull hmem
  obtain ⟨r, hr, hp⟩ := hmem
  obtain rfl := Except.ok.inj hclaim
  let sending (r : Record) : Record := { r with state := .sending, attempted := some later, senderHash := some k }
  have hroom : (stamps rows).countP (fun x => x.1 = k ∧ Recent x.2 later) < host.dailyLimit := by
    have hcount := attempts_eq k now rows
    have hle : (stamps rows).countP (fun x => x.1 = k ∧ Recent x.2 later) ≤
        (stamps rows).countP fun x => x.1 = k ∧ Recent x.2 now := by
      refine List.countP_mono_left fun x _ hx => ?_
      simp only [decide_eq_true_eq] at hx ⊢
      exact ⟨hx.1, Int.le_trans (Int.sub_le_sub_right hlater day) hx.2⟩
    omega
  have hpast : ∀ x ∈ stamps rows, x.2 ≤ later := fun x hx => Int.le_trans (h.past x hx) hlater
  have hstamps : ((k, later) :: stamps rows).Perm (stamps (updateWhere (Reviewed id contentHash) sending rows)) := by
    obtain ⟨pre, post, hrows, hnew⟩ := updateWhere_split (f := sending) h.keyed hr hp
      fun r' hp' => hp'.1.trans hp.1.symm
    have hnone := h.drafts r hr hp.2.1
    rw [hnew, hrows, stamps_append, stamps_append, stamps_cons_none hnone]
    exact List.perm_middle.symm
  have hmono : ∀ x y t : Time, x ≤ y → y ≤ t → Recent x t → Recent x y := fun x y t _ hy hx =>
    Int.le_trans (Int.sub_le_sub_right hy day) hx
  refine ⟨?_, ?_, ?_, ?_, ?_, ?_, ?_⟩
  · refine (keyed_updateWhere ?_).mpr h.keyed
    intro _ _
    rfl
  · refine (keyed_updateWhere ?_).mpr h.recipients
    intro _ _
    rfl
  · intro r' hr'
    obtain ⟨r, hr, rfl⟩ := mem_updateWhere.mp hr'
    split_ifs
    · exact h.hashes r hr
    · exact h.hashes r hr
  · intro r' hr'
    obtain ⟨r, hr, rfl⟩ := mem_updateWhere.mp hr'
    split_ifs
    · exact h.headers r hr
    · exact h.headers r hr
  · intro r' hr'
    obtain ⟨r, hr, rfl⟩ := mem_updateWhere.mp hr'
    split_ifs
    · intro hdraft
      cases hdraft
    · exact h.drafts r hr
  · intro x hx
    rcases List.mem_cons.mp (hstamps.mem_iff.mpr hx) with rfl | hx
    · exact Int.le_refl later
    · exact hpast x hx
  · exact (bounded_cons hmono h.bounded hpast hroom).perm hstamps

theorem held_claimed (h : Inv host s) {id : String} (hid : id ∈ s.jobs.flatMap heldBy) : Has s.rows id Claimed := by
  obtain ⟨j, hj, hmem⟩ := List.mem_flatMap.mp hid
  have hok := h.jobs j hj
  cases j with
  | dispatch m =>
    obtain rfl := List.mem_singleton.mp hmem
    obtain ⟨r, hr, hrid, hopen⟩ := hok.2.2
    refine ⟨r, hr, hrid, fun hdraft => ?_⟩
    unfold Open at hopen
    rw [hdraft] at hopen
    simp at hopen
  | settle id' o =>
    obtain rfl := List.mem_singleton.mp hmem
    exact hok.2
  | edit | suppress | claim | readBack => exact absurd hmem List.not_mem_nil

theorem not_claimed_of_draft (h : Inv host s) {r : Record} (hr : r ∈ s.rows) (hdraft : r.state = .draft) :
    ¬ Has s.rows r.id Claimed := by
  intro hclaimed
  obtain ⟨r', hstate, hstate'⟩ := Has.eq (Q := fun r => r.state = .draft) h.sound.keyed
    ⟨r, hr, rfl, hdraft⟩ hclaimed
  exact hstate' hstate

theorem Inv.add (h : Inv host s) {j : Job} (hok : JobOk host s j) (hheld : ∀ id ∈ heldBy j, id ∉ s.jobs.flatMap heldBy)
    (hnodup : (heldBy j).Nodup) : Inv host { s with jobs := s.jobs ++ [j] } := by
  refine ⟨h.sound, fun j' hj' => ?_, ?_, h.told.congr rfl rfl⟩
  · rcases List.mem_append.mp hj' with hj' | hj'
    · exact h.jobs j' hj'
    · rw [List.mem_singleton.mp hj']
      exact hok
  · change ((s.jobs ++ [j]).flatMap heldBy).Nodup
    rw [List.flatMap_append, List.flatMap_singleton]
    refine List.nodup_append.mpr ⟨h.held, hnodup, ?_⟩
    rintro id hid _ hid' rfl
    exact hheld id hid' hid

theorem inv_claim (h : Inv host s) {id contentHash sender : String} {d : Draft}
    (hok : JobOk host s (.claim id contentHash d sender)) (a : Answer) :
    Inv host (goOn host a s (.claim id contentHash d sender)) := by
  cases a with
  | commits elapsed =>
    simp only [goOn]
    split
    · exact h.pass elapsed
    · rename_i rows hclaim
      have hlater : s.now ≤ (s.pass elapsed).now := Int.le_add_of_nonneg_right (Int.natCast_nonneg elapsed)
      have hsound : Sound host (s.pass elapsed).now rows := sound_claim h.sound hlater hclaim
      unfold claim at hclaim
      split_ifs at hclaim with hfull hmem
      obtain rfl := Except.ok.inj hclaim
      obtain ⟨r, hr, hp⟩ := hmem
      let sending (r : Record) : Record :=
        { r with state := .sending, attempted := some (s.pass elapsed).now, senderHash := some (host.hash sender) }
      have hnew : ¬ Has s.rows id Claimed := hp.1 ▸ not_claimed_of_draft h hr hp.2.1
      have hmoves : Moves (s.pass elapsed) (updateWhere (Reviewed id contentHash) sending s.rows) := by
        refine moves_updateWhere (fun _ => rfl) (fun _ _ _ => rfl) (fun _ _ h => by cases h) ?_ ?_
        · intro r' hp' hsuppressed
          exact absurd (hp'.2.1.symm.trans hsuppressed) (by decide)
        · intro m _ r' _ _ _
          exact Or.inl rfl
      have hinv := (h.pass elapsed).moves hsound hmoves
      have hopen : Has (updateWhere (Reviewed id contentHash) sending s.rows) id Open := by
        refine ⟨sending r, mem_updateWhere.mpr ⟨r, hr, if_pos hp⟩, hp.1, ?_⟩
        exact Or.inl rfl
      refine hinv.add ⟨hok, ?_, hopen⟩ ?_ (List.nodup_singleton id)
      · intro hposted
        obtain ⟨m, hm, hid⟩ := List.mem_map.mp hposted
        have hclaimed := (h.told.mails m hm).2
        rw [hid] at hclaimed
        exact hnew hclaimed
      · intro id' hid' hheld
        obtain rfl := List.mem_singleton.mp hid'
        exact hnew (held_claimed h hheld)
  | refused | sent | found => exact h

/-! ### The dispatch -/

theorem mailbox_append (s : State) (e : Event) (jobs : List Job) :
    ({ s with jobs, log := s.log ++ [e] } : State).mailbox = s.mailbox ++ e.mail?.toList := by
  unfold State.mailbox
  rw [List.filterMap_append]
  cases e <;> rfl

/-- **The email is given to Gmail**, for the first time and before any suppression. -/
theorem told_post (h : Inv host s) {m : Mail} (hok : JobOk host s (.dispatch m)) (jobs : List Job) :
    Told host { s with jobs, log := s.log ++ [.post m] } := by
  obtain ⟨hmail, hnew, hopen⟩ := hok
  have hmailbox : ({ s with jobs, log := s.log ++ [.post m] } : State).mailbox = s.mailbox ++ [m] :=
    mailbox_append s (.post m) jobs
  have hnot : ∀ Q : Record → Prop, (∀ r, Open r → ¬ Q r) → ¬ Has s.rows m.id Q := by
    intro Q hQ hhas
    obtain ⟨r, hr, hq⟩ := Has.eq h.sound.keyed hopen hhas
    exact hQ r hr hq
  refine ⟨?_, ?_, ?_, ?_⟩
  · rw [hmailbox]
    intro m' hm'
    rcases List.mem_append.mp hm' with hm' | hm'
    · exact h.told.mails m' hm'
    · rw [List.mem_singleton.mp hm']
      obtain ⟨r, hr, hid, hstate⟩ := hopen
      refine ⟨hmail, r, hr, hid, fun hdraft => ?_⟩
      rcases hstate with hstate | hstate
      · exact absurd (hdraft.symm.trans hstate) (by decide)
      · exact absurd (hdraft.symm.trans hstate) (by decide)
  · rw [hmailbox, List.map_append, List.map_singleton]
    refine List.nodup_append.mpr ⟨h.told.once, List.nodup_singleton m.id, ?_⟩
    rintro id hid _ hid' rfl
    rw [List.mem_singleton.mp hid'] at hid
    exact hnew hid
  · intro id hid
    rcases List.mem_append.mp hid with hid | hid
    · exact h.told.suppressed id hid
    · cases List.mem_singleton.mp hid
  · refine List.pairwise_append.mpr ⟨h.told.order, List.pairwise_singleton _ _, ?_⟩
    rintro e he _ he' m' rfl rfl
    cases List.mem_singleton.mp he'
    refine hnot Suppressed (fun r hopen hsuppressed => ?_) (h.told.suppressed m.id he)
    rcases hopen with hstate | hstate
    · exact absurd (hsuppressed.symm.trans hstate) (by decide)
    · exact absurd (hsuppressed.symm.trans hstate) (by decide)

theorem inv_dispatch (h : Inv host s) {m : Mail} (hok : JobOk host s (.dispatch m))
    (hothers : m.id ∉ s.jobs.flatMap heldBy) (a : Answer) : Inv host (goOn host a s (.dispatch m)) := by
  have hclaimed : Has s.rows m.id Claimed := by
    obtain ⟨r, hr, hid, hopen⟩ := hok.2.2
    refine ⟨r, hr, hid, fun hdraft => ?_⟩
    rcases hopen with hstate | hstate
    · exact absurd (hdraft.symm.trans hstate) (by decide)
    · exact absurd (hdraft.symm.trans hstate) (by decide)
  have hsettle : ∀ o : Outcome, o.state ≠ .draft → Inv host { s with jobs := s.jobs ++ [.settle m.id o] } := by
    intro o ho
    refine h.add ⟨ho, hclaimed⟩ ?_ (List.nodup_singleton m.id)
    rintro id hid hheld
    obtain rfl := List.mem_singleton.mp hid
    exact hothers hheld
  cases a with
  | sent r =>
    have houtcome : (r.outcome host).state ≠ .draft := by
      cases r with
      | ok messageId threadId =>
        unfold Response.outcome
        dsimp only
        split_ifs <;> exact nofun
      | status code =>
        unfold Response.outcome
        dsimp only
        split_ifs <;> exact nofun
      | malformed | lost => exact nofun
    have hinv := hsettle _ houtcome
    have htold := told_post h hok (s.jobs ++ [.settle m.id (r.outcome host)])
    refine ⟨hinv.sound, fun j hj => ?_, hinv.held, htold⟩
    have hjob := hinv.jobs j hj
    cases j with
    | dispatch m' =>
      refine ⟨hjob.1, ?_, hjob.2.2⟩
      have hmailbox : (goOn host (.sent r) s (.dispatch m)).mailbox = s.mailbox ++ [m] :=
        mailbox_append s (.post m) _
      intro hposted
      rw [hmailbox, List.map_append, List.map_singleton] at hposted
      rcases List.mem_append.mp hposted with hposted | hposted
      · exact hjob.2.1 hposted
      · have hmem : Job.dispatch m' ∈ s.jobs := by
          rcases List.mem_append.mp hj with hj | hj
          · exact hj
          · cases List.mem_singleton.mp hj
        have hheld : m'.id ∈ s.jobs.flatMap heldBy := List.mem_flatMap.mpr ⟨_, hmem, List.mem_singleton.mpr rfl⟩
        rw [List.mem_singleton.mp hposted] at hheld
        exact hothers hheld
    | edit | suppress | claim | settle | readBack => exact hjob
  | commits | refused | found => exact hsettle uncertain nofun

theorem inv_suppress (h : Inv host s) (id : String) (a : Answer) :
    Inv host (goOn host a s (.suppress id)) := by
  have hinv : Inv host { s with rows := suppress id s.rows } :=
    h.moves (sound_suppress h.sound id) (moves_suppress id)
  simp only [goOn]
  split_ifs with hmem
  · obtain ⟨r, hr, hp⟩ := hmem
    have hmailbox : ∀ rows, ({ s with rows, log := s.log ++ [.suppress id] } : State).mailbox = s.mailbox := by
      intro rows
      unfold State.mailbox
      simp only [List.filterMap_append, List.filterMap_cons, Event.mail?, List.filterMap_nil, List.append_nil]
    refine ⟨hinv.sound, fun j hj => ?_, hinv.held, ?_⟩
    · have hjob := hinv.jobs j hj
      cases j with
      | dispatch m =>
        refine ⟨hjob.1, ?_, hjob.2.2⟩
        rw [hmailbox]
        exact hjob.2.1
      | edit | suppress | claim | settle | readBack => exact hjob
    · refine ⟨?_, ?_, ?_, ?_⟩
      · rw [hmailbox]
        exact hinv.told.mails
      · rw [hmailbox]
        exact h.told.once
      · intro id' hid'
        rcases List.mem_append.mp hid' with hid' | hid'
        · exact hinv.told.suppressed id' hid'
        · cases List.mem_singleton.mp hid'
          exact ⟨_, mem_updateWhere.mpr ⟨r, hr, if_pos hp⟩, hp.1, rfl⟩
      · refine List.pairwise_append.mpr ⟨h.told.order, List.pairwise_singleton _ _, ?_⟩
        rintro e _ _ he' m rfl
        cases List.mem_singleton.mp he'
  · exact hinv

theorem inv_readBack (h : Inv host s) {id sender : String} {d : Draft}
    (hok : JobOk host s (.readBack id d sender)) (a : Answer) :
    Inv host (goOn host a s (.readBack id d sender)) := by
  cases a with
  | found mail messageId threadId =>
    simp only [goOn]
    split_ifs with hfound
    · obtain ⟨-, m, hm, hmatch⟩ := hfound
      have hmem : m ∈ s.mailbox := List.mem_of_getElem? hm
      have hheader := (h.told.mails m hmem).1.2
      have hid : m.id = id := headerOf_injective (hheader.symm.trans (hmatch.1.trans hok))
      exact inv_verify h (List.mem_map.mpr ⟨m, hmem, hid⟩)
    · exact h
  | commits | refused | sent => exact h

/-- **What is left of a call** keeps the invariant. -/
theorem inv_goOn (h : Inv host s) {j : Job} (hok : JobOk host s j)
    (hothers : ∀ id ∈ heldBy j, id ∉ s.jobs.flatMap heldBy) (a : Answer) : Inv host (goOn host a s j) := by
  cases j with
  | edit id contentHash d => exact inv_commitEdit h hok
  | suppress id => exact inv_suppress h id a
  | claim id contentHash d sender => exact inv_claim h hok a
  | dispatch m => exact inv_dispatch h hok (hothers m.id (List.mem_singleton.mpr rfl)) a
  | settle id o => exact inv_settle h hok.1 (hothers id (List.mem_singleton.mpr rfl))
  | readBack id d sender => exact inv_readBack h hok a

/-! ### The calls -/

theorem of_get {id workspace : String} {r : Record} (h : Schema.get host id workspace rows = .ok r) :
    r ∈ rows ∧ r.id = id ∧ host.digest r.payload = r.contentHash := by
  unfold Schema.get at h
  split at h
  · cases h
  · rename_i r' hfind
    split_ifs at h with hdigest
    obtain rfl := Except.ok.inj h
    have hp := List.find?_some hfind
    simp only [decide_eq_true_eq] at hp
    exact ⟨List.mem_of_find?_eq_some hfind, hp.1, not_not.mp hdigest⟩

theorem payload_header {sources : String → Option Page} {p : Proposal} {identity : String} {d : Draft}
    (h : payload host sources p identity = .ok d) : d.messageIdHeader = headerOf identity := by
  unfold payload at h
  dsimp only [bind, Except.bind, pure, Except.pure, throw, throwThe, MonadExceptOf.throw] at h
  split at h
  · split_ifs at h
    split at h
    · cases h
    · split_ifs at h
      obtain rfl := Except.ok.inj h
      rfl
  · cases h

theorem create_cases {workspace identity : String} {sources : String → Option Page} {enabled : Bool} {p : Proposal}
    {now : Time} {rows' : Records} (h : create host workspace sources enabled p identity now rows = .ok rows') :
    rows' = rows ∨ ∃ d : Draft, d.messageIdHeader = headerOf identity ∧
      (∀ r ∈ rows, (r.workspace, r.recipientHash) ≠ (workspace, host.hash d.recipient)) ∧
      (∀ r ∈ rows, r.id ≠ identity) ∧ rows' = rows ++ [fresh host workspace identity d now] := by
  unfold create at h
  dsimp only [bind, Except.bind, pure, Except.pure, throw, throwThe, MonadExceptOf.throw] at h
  cases hd : payload host sources p identity with
  | error e =>
    rw [hd] at h
    split_ifs at h
  | ok d =>
    rw [hd] at h
    dsimp only at h
    cases hfind : rows.find? fun r => r.workspace = workspace ∧ r.recipientHash = host.hash d.recipient with
    | some r =>
      rw [hfind] at h
      dsimp only at h
      cases hget : Schema.get host r.id workspace rows with
      | error e =>
        rw [hget] at h
        split_ifs at h
      | ok previous =>
        rw [hget] at h
        dsimp only at h
        split_ifs at h
        exact Or.inl (Except.ok.inj h).symm
    | none =>
      rw [hfind] at h
      split_ifs at h with henabled hexists
      refine Or.inr ⟨d, payload_header hd, fun r hr heq => ?_, fun r hr hid => hexists ⟨r, hr, hid⟩,
        (Except.ok.inj h).symm⟩
      have hnone := List.find?_eq_none.mp hfind r hr
      simp only [decide_eq_true_eq] at hnone
      exact hnone (Prod.mk.inj heq)

theorem inv_create (h : Inv host s) {workspace identity : String} {sources : String → Option Page} {enabled : Bool}
    {p : Proposal} {rows : Records}
    (hcreate : create host workspace sources enabled p identity s.now s.rows = .ok rows) :
    Inv host { s with rows } := by
  rcases create_cases hcreate with rfl | ⟨d, hheader, hrecipient, hid, rfl⟩
  · exact h
  have hstamps : stamps (s.rows ++ [fresh host workspace identity d s.now]) = stamps s.rows := by
    rw [stamps_append, stamps_cons_none rfl]
    exact List.append_nil _
  refine h.moves ⟨?_, ?_, ?_, ?_, ?_, hstamps ▸ h.sound.past, hstamps ▸ h.sound.bounded⟩ ?_
  · refine keyed_append.mpr ⟨h.sound.keyed, List.nodup_singleton _, ?_⟩
    intro r hr r' hr'
    rw [List.mem_singleton.mp hr']
    exact hid r hr
  · refine keyed_append.mpr ⟨h.sound.recipients, List.nodup_singleton _, ?_⟩
    intro r hr r' hr'
    rw [List.mem_singleton.mp hr']
    exact hrecipient r hr
  · intro r hr
    rcases List.mem_append.mp hr with hr | hr
    · exact h.sound.hashes r hr
    · rw [List.mem_singleton.mp hr]
      rfl
  · intro r hr
    rcases List.mem_append.mp hr with hr | hr
    · exact h.sound.headers r hr
    · rw [List.mem_singleton.mp hr]
      exact hheader
  · intro r hr
    rcases List.mem_append.mp hr with hr | hr
    · exact h.sound.drafts r hr
    · rw [List.mem_singleton.mp hr]
      exact fun _ => rfl
  · exact ⟨fun _ hhas => hhas.append _, fun _ hhas => hhas.append _, fun _ _ hhas => hhas.append _,
      fun _ _ hhas => hhas.append _⟩

theorem of_readEdit {id workspace contentHash subject text : String} {d : Draft}
    (h : readEdit host id workspace contentHash subject text rows = .ok d) :
    ∃ r ∈ rows, r.id = id ∧ d = { r.payload with subject, text } := by
  unfold readEdit at h
  dsimp only [bind, Except.bind, pure, Except.pure, throw, throwThe, MonadExceptOf.throw] at h
  cases hget : Schema.get host id workspace rows with
  | error e =>
    rw [hget] at h
    cases h
  | ok r =>
    rw [hget] at h
    dsimp only at h
    split_ifs at h
    obtain ⟨hr, hid, -⟩ := of_get hget
    exact ⟨r, hr, hid, (Except.ok.inj h).symm⟩

theorem of_readSend {id workspace contentHash : String} {options : Options} {d : Draft}
    (h : readSend host id workspace contentHash options rows = .ok d) :
    ∃ r ∈ rows, r.id = id ∧ d = r.payload ∧ host.digest d = contentHash := by
  unfold readSend at h
  dsimp only [bind, Except.bind, pure, Except.pure, throw, throwThe, MonadExceptOf.throw] at h
  cases hget : Schema.get host id workspace rows with
  | error e =>
    rw [hget] at h
    cases h
  | ok r =>
    rw [hget] at h
    dsimp only at h
    split_ifs at h with hhash
    obtain ⟨hr, hid, hdigest⟩ := of_get hget
    obtain rfl := Except.ok.inj h
    exact ⟨r, hr, hid, rfl, hdigest.trans (not_not.mp hhash)⟩

theorem of_readReconcile {id workspace sender : String} {d : Draft}
    (h : readReconcile host id workspace sender rows = .ok d) : ∃ r ∈ rows, r.id = id ∧ d = r.payload := by
  unfold readReconcile at h
  dsimp only [bind, Except.bind, pure, Except.pure, throw, throwThe, MonadExceptOf.throw] at h
  cases hget : Schema.get host id workspace rows with
  | error e =>
    rw [hget] at h
    cases h
  | ok r =>
    rw [hget] at h
    dsimp only at h
    split_ifs at h
    obtain ⟨hr, hid, -⟩ := of_get hget
    exact ⟨r, hr, hid, (Except.ok.inj h).symm⟩

theorem of_map_ok {α β : Type} {f : α → β} {x : Except String α} {b : β} (h : x.map f = .ok b) :
    ∃ a, x = .ok a ∧ f a = b := by
  cases x with
  | error e => cases h
  | ok a => exact ⟨a, rfl, Except.ok.inj h⟩

/-- **A step keeps the invariant.** -/
theorem inv_step (h : Inv host s) (op : Op) : Inv host (step host s op) := by
  cases op with
  | pass elapsed => exact h.pass elapsed
  | recover => exact inv_recover h
  | create workspace sources enabled p identity =>
    simp only [step]
    split
    · exact h
    · rename_i rows hcreate
      exact inv_create h hcreate
  | edit id workspace contentHash subject text =>
    refine h.withJob (fun j hj => ?_) fun j hj => ?_
    · obtain ⟨d, hd, rfl⟩ := of_map_ok hj
      obtain ⟨r, hr, rfl, rfl⟩ := of_readEdit hd
      exact ⟨h.sound.headers r hr, r, hr, rfl, rfl⟩
    · obtain ⟨d, hd, rfl⟩ := of_map_ok hj
      rfl
  | suppress id workspace =>
    refine h.withJob (fun j hj => ?_) fun j hj => ?_
    · obtain ⟨d, hd, rfl⟩ := of_map_ok hj
      trivial
    · obtain ⟨d, hd, rfl⟩ := of_map_ok hj
      rfl
  | send id workspace contentHash options sender =>
    refine h.withJob (fun j hj => ?_) fun j hj => ?_
    · obtain ⟨d, hd, rfl⟩ := of_map_ok hj
      obtain ⟨r, hr, rfl, rfl, hdigest⟩ := of_readSend hd
      exact ⟨hdigest, h.sound.headers r hr⟩
    · obtain ⟨d, hd, rfl⟩ := of_map_ok hj
      rfl
  | reconcile id workspace sender =>
    refine h.withJob (fun j hj => ?_) fun j hj => ?_
    · obtain ⟨d, hd, rfl⟩ := of_map_ok hj
      obtain ⟨r, hr, rfl, rfl⟩ := of_readReconcile hd
      exact h.sound.headers r hr
    · obtain ⟨d, hd, rfl⟩ := of_map_ok hj
      rfl
  | goOn job a =>
    simp only [step]
    split
    · exact h
    · rename_i j hj
      obtain ⟨hlt, rfl⟩ := List.getElem?_eq_some_iff.mp hj
      have hperm := (List.getElem_cons_eraseIdx_perm hlt).flatMap_right heldBy
      have hnodup := (hperm.nodup_iff).mpr h.held
      rw [List.flatMap_cons] at hnodup
      have hdisjoint := (List.nodup_append.mp hnodup).2.2
      refine inv_goOn (h.crash job) ?_ (fun id hid hmem => hdisjoint id hid id hmem rfl) a
      have hok := h.jobs _ (List.getElem_mem hlt)
      generalize s.jobs[job] = j at hok
      cases j with
      | edit | suppress | claim | dispatch | settle | readBack => exact hok
  | crash job => exact h.crash job

theorem inv_start (now : Time) : Inv host { now } := by
  refine ⟨⟨List.nodup_nil, List.nodup_nil, ?_, ?_, ?_, ?_, bounded_nil⟩, ?_, List.nodup_nil, ?_⟩
  · exact fun _ hr => absurd hr List.not_mem_nil
  · exact fun _ hr => absurd hr List.not_mem_nil
  · exact fun _ hr => absurd hr List.not_mem_nil
  · exact fun _ hx => absurd hx List.not_mem_nil
  · exact fun _ hj => absurd hj List.not_mem_nil
  · exact ⟨fun _ hm => absurd hm List.not_mem_nil, List.nodup_nil, fun _ he => absurd he List.not_mem_nil,
      List.Pairwise.nil⟩

theorem inv_after (now : Time) (ops : List Op) : Inv host (run (step host) { now } ops) :=
  inv_run (I := Inv host) (G := fun _ _ => True) (fun _ op h _ => inv_step h op) (inv_start now) (along_of_forall fun _ _ => trivial)

/-! ### No way back -/

def Stay (rows rows' : Records) : Prop := ∀ id, Has rows id Claimed → Has rows' id Claimed

theorem stay_updateWhere {p : Record → Prop} [DecidablePred p] {f : Record → Record} (hid : ∀ r, (f r).id = r.id)
    (hclaimed : ∀ r, p r → (f r).state = .draft → r.state = .draft) : Stay rows (updateWhere p f rows) :=
  fun _ h => h.updateWhere hid (fun r _ _ hq hp hdraft => hq (hclaimed r hp hdraft)) fun _ hq => hq

theorem stay_goOn {j : Job} (hok : JobOk host s j) (a : Answer) : Stay s.rows (goOn host a s j).rows := by
  have hsame : Stay s.rows s.rows := fun _ h => h
  cases j with
  | edit id contentHash d => exact stay_updateWhere (fun _ => rfl) fun _ _ hdraft => hdraft
  | suppress id => exact stay_updateWhere (fun _ => rfl) fun _ _ h => by cases h
  | claim id contentHash d sender =>
    cases a with
    | commits elapsed =>
      simp only [goOn]
      split
      · exact hsame
      · rename_i rows hclaim
        unfold claim at hclaim
        split_ifs at hclaim
        obtain rfl := Except.ok.inj hclaim
        exact stay_updateWhere (fun _ => rfl) fun _ _ h => by cases h
    | refused | sent | found => exact hsame
  | dispatch m =>
    cases a with
    | commits | refused | sent | found => exact hsame
  | settle id o => exact stay_updateWhere (fun _ => rfl) fun _ _ hdraft => absurd hdraft hok.1
  | readBack id d sender =>
    cases a with
    | found mail messageId threadId =>
      simp only [goOn]
      split_ifs
      · exact stay_updateWhere (fun _ => rfl) fun _ _ h => by cases h
      · exact hsame
    | commits | refused | sent => exact hsame

theorem stay_withJob (j : Except String Job) : Stay s.rows (s.withJob j).rows := by
  cases j with
  | error e => exact fun _ h => h
  | ok j => exact fun _ h => h

theorem stay_step (h : Inv host s) (op : Op) : Stay s.rows (step host s op).rows := by
  have hsame : Stay s.rows s.rows := fun _ h => h
  cases op with
  | pass | crash => exact hsame
  | edit | suppress | send | reconcile => exact stay_withJob _
  | recover => exact stay_updateWhere (fun _ => rfl) fun _ _ => nofun
  | create workspace sources enabled p identity =>
    simp only [step]
    split
    · exact hsame
    · rename_i rows hcreate
      rcases create_cases hcreate with rfl | ⟨d, -, -, -, rfl⟩
      · exact hsame
      · exact fun _ hhas => hhas.append _
  | goOn job a =>
    simp only [step]
    split
    · exact hsame
    · rename_i j hj
      have hok := h.jobs j (List.mem_of_getElem? hj)
      have hleft : JobOk host { s with jobs := s.jobs.eraseIdx job } j := by
        cases j with
        | edit | suppress | claim | dispatch | settle | readBack => exact hok
      exact stay_goOn hleft a

theorem stay_run (h : Inv host s) (ops : List Op) : Stay s.rows (run (step host) s ops).rows := by
  have hinv : Inv host (run (step host) s ops) ∧ Stay s.rows (run (step host) s ops).rows :=
    inv_run (I := fun s' => Inv host s' ∧ Stay s.rows s'.rows) (G := fun _ _ => True)
      (fun s' op hI _ => ⟨inv_step hI.1 op, fun id hid => stay_step hI.1 op id (hI.2 id hid)⟩)
      ⟨h, fun _ hid => hid⟩ (along_of_forall fun _ _ => trivial)
  exact hinv.2

/-- **A reviewed email is dispatched at most once**: whatever the order of the calls, and of what is left of
them, each record is given to Gmail at most once, with the content that was reviewed and not after a
suppression; a sender has no more attempts in a day than the cap; a record that was claimed is never a draft
again; and a project has one record for a recipient. -/
theorem dispatched_once (host : Host) (now : Time) (ops : List Op) :
    let s := run (step host) { now } ops
    (s.mailbox.map Mail.id).Nodup ∧
      (∀ m ∈ s.mailbox, host.digest m.draft = m.contentHash) ∧
      (s.log.Pairwise fun e e' => ∀ m, e' = .post m → e ≠ .suppress m.id) ∧
      (∀ sender t, (s.rows.countP fun r => r.senderHash = some sender ∧ ∃ a ∈ r.attempted, t - day ≤ a ∧ a ≤ t) ≤
        host.dailyLimit) ∧
      (∀ as bs, ops = as ++ bs → ∀ r ∈ (run (step host) { now } as).rows, r.state ≠ .draft →
        ∃ r' ∈ s.rows, r'.id = r.id ∧ r'.state ≠ .draft) ∧
      Keyed Record.id s.rows ∧ Keyed (fun r => (r.workspace, r.payload.recipient)) s.rows := by
  intro s
  have h : Inv host s := inv_after now ops
  refine ⟨h.told.once, fun m hm => (h.told.mails m hm).1.1, h.told.order, fun sender t => ?_, ?_, h.sound.keyed, ?_⟩
  · have hbound := h.sound.bounded sender t
    rw [← counted_stamps] at hbound
    exact hbound
  · rintro as bs rfl r hr hclaimed
    have hbefore : Inv host (run (step host) { now } as) := inv_after now as
    have hstay := stay_run hbefore bs r.id ⟨r, hr, rfl, hclaimed⟩
    rw [← run_append] at hstay
    exact hstay
  · have hhash : s.rows.map (fun r => (r.workspace, r.recipientHash)) =
        (s.rows.map fun r => (r.workspace, r.payload.recipient)).map (Prod.map id host.hash) := by
      rw [List.map_map]
      refine List.map_congr_left fun r hr => ?_
      rw [h.sound.hashes r hr]
      rfl
    have hnodup : (s.rows.map fun r => (r.workspace, r.recipientHash)).Nodup := h.sound.recipients
    rw [hhash] at hnodup
    exact hnodup.of_map _

end Smara.Outreach.Dispatch
