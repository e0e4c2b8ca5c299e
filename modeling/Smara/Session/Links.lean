import Smara.Session.Effects

/-! # The objects of a run name rows of its ledger

Every step is a change of the ledger (`change_next`) and keeps `Linked` (`linked_next`); both need the
other at the state before, so an induction over the run gives them together. -/

namespace Smara.Session.Links

open Lib.Machine Lib.Table Lib.Transaction
open TaskStore.Schema (Uuid Digest)
open Goals.Schema (Json Uuids)
open Session.Schema Session.Envelope Session.Protocol Session.Steps
open Session.Effects

variable {uuids : Uuids} {w w' : World} {op : Op} {db db' : SessionDb} {env : Env}

/-! ### Changes by the transactions -/

theorem change_item {threadId : String} {turnId : Uuid} {kind : String} {payload : Json} {u : Unit}
    (hb : Brings w op turnId (safe env.host payload))
    (h : item env (uuids.draw w.drawn) threadId turnId kind payload w.db = .ok (u, db')) :
    Change uuids w op db' := by
  obtain ⟨ha, hr⟩ := whileActive_ok h
  exact .starts hb ha (Prod.mk.inj hr).2

theorem change_completeItem {threadId : String} {turnId itemId : Uuid} {payload : Json}
    {status : ItemStatus} {u : Unit}
    (hcomp : Completes w op turnId itemId (safe env.host payload) status)
    (h : completeItem env threadId turnId itemId payload status w.db = .ok (u, db')) :
    Change uuids w op db' := by
  unfold completeItem at h
  split at h
  · next hi => exact .closes hcomp hi (Prod.mk.inj (Except.ok.inj h)).2.symm
  · exact .quiet (.idle (Prod.mk.inj (Except.ok.inj h)).2.symm)

theorem change_delta (hc : w.db.Constraints) {threadId : String} {turnId messageId : Uuid}
    {text : String} (ho : Owns turnId messageId w.db) {u : Unit}
    (h : delta env threadId turnId messageId text w.db = .ok (u, db')) : Change uuids w op db' := by
  unfold delta at h
  split at h
  · cases h
  · next i hi =>
    obtain ⟨hmem, hid⟩ := (lookup_eq_some_iff hc.items).mp hi
    obtain ⟨i', hi', hid', hturn⟩ := ho
    obtain rfl := hc.items.eq_of_key hmem hi' (hid.trans hid'.symm)
    split at h
    · exact .quiet (.idle (Prod.mk.inj (Except.ok.inj h)).2.symm)
    · next hr =>
      subst hid hturn
      exact .streams hmem (not_not.mp hr) (Prod.mk.inj (Except.ok.inj h)).2.symm

theorem change_begin {threadId request mode : String} {handler : Bool} {mode' : ApprovalMode}
    (h : begin env (uuids.draw w.drawn) threadId request mode w.db = .ok (mode', db')) :
    Change uuids w (.begin env threadId request mode handler) db' := by
  obtain ⟨mode'', hchecked, h⟩ := bind_ok h
  split at h
  · cases h
  · next s hs =>
    have hsome : (w.db.session threadId).isSome := by
      rw [hs]
      rfl
    split at h
    · next hnone => exact .opens rfl hsome hnone (Prod.mk.inj (Except.ok.inj h)).2.symm
    · next t ht =>
      split at h
      · next ho =>
        exact .recovers rfl hchecked hsome ht ho (Prod.mk.inj (Except.ok.inj h)).2.symm
      · cases h

theorem change_respond (hc : w.db.Constraints) {threadId : String} {approvalId turnId : Uuid}
    {sha256 : Digest} {text : String} (hr : Responds w approvalId text op) {d : Decision}
    (h : respond env threadId approvalId turnId sha256 text w.db = .ok (d, db')) :
    Change uuids w op db' := by
  obtain ⟨decision, hd, h⟩ := bind_ok h
  split at h
  · cases h
  · next a t hrow =>
    obtain ⟨a', ha', hrow⟩ := Option.bind_eq_some_iff.mp hrow
    obtain ⟨t', ht', hrow⟩ := Option.bind_eq_some_iff.mp hrow
    obtain ⟨rfl, rfl⟩ := Prod.mk.inj (Option.some.inj hrow)
    obtain ⟨hmem, hid⟩ := (lookup_eq_some_iff hc.approvals).mp ha'
    obtain ⟨htmem, htid⟩ := (lookup_eq_some_iff hc.turns).mp ht'
    split at h
    · cases h
    · next hmatch =>
      obtain ⟨hthread, hturn, -⟩ := not_or.mp hmatch |>.imp not_not.mp not_or.mp
      split at h
      · cases h
      · next hlive =>
        obtain ⟨hactive, hlive⟩ := not_or.mp hlive
        obtain ⟨hcancel, -⟩ := not_or.mp hlive
        split at h
        · next hp =>
          have hturn' : a'.turnId = turnId := not_not.mp hturn
          subst hid hturn'
          exact .responds hr hd hmem hp ⟨t', htmem, htid, hthread⟩ ⟨t', ht', not_not.mp hactive⟩
            (eq_false_of_ne_true hcancel) (Prod.mk.inj (Except.ok.inj h)).2.symm
        · split at h
          · exact .quiet (.idle (Prod.mk.inj (Except.ok.inj h)).2.symm)
          · cases h

theorem not_active_finished (cancelled : Bool) (status : String) :
    ¬ (if cancelled then TurnStatus.cancelled else finishStatus status).Active := by
  split_ifs
  · decide
  · unfold finishStatus
    split_ifs <;> decide

theorem change_finish {k : ℕ} {p : ProtocolTurn} (hp : w.turns[k]? = some p) {m : Option Uuid}
    {status answer : String}
    (h : finish env (uuids.draw w.drawn) p.threadId p.turnId p.messageId status answer w.db =
      .ok (m, db')) :
    Change uuids w (.finish env k status answer) db' := by
  unfold finish at h
  split at h
  · cases h
  · next t ht =>
    split at h
    · next hactive =>
      exact .finishes rfl hp ⟨t, ht, hactive⟩ (not_active_finished _ status)
        (Prod.mk.inj (Except.ok.inj h)).2.symm
    · exact .quiet (.idle (Prod.mk.inj (Except.ok.inj h)).2.symm)

/-! ### Executions -/

section Executions
variable {e : Execution} {β : Type} {body : SessionDb → Except Err (β × SessionDb)} {k : β → Execution}

theorem transact_snd (e : Execution) (body : SessionDb → Except Err (β × SessionDb))
    (k : β → Execution) (db : SessionDb) : (e.transact body k db).2 = (transaction body db).2 := by
  unfold Execution.transact
  split
  · next he => rw [he]
  · next he => rw [he]

def Plain (phase : Phase) : Prop := foundIn phase = none ∧ ¬ Cleared phase

theorem linked_cleared (h : ExecutionLinked e db) {phase : Phase} (hp : foundIn phase = none)
    (hd : NeedsApproval e → Decided e .allow db) : ExecutionLinked (e.enter phase) db := by
  refine ⟨h.known, h.item, h.asked, fun d hd => ?_, fun _ hn => hd hn⟩
  have hnone : foundIn (e.enter phase).phase = none := hp
  rw [hnone] at hd
  cases hd

theorem linked_enter (h : ExecutionLinked e db) {phase : Phase} (hp : Plain phase) :
    ExecutionLinked (e.enter phase) db := by
  refine ⟨h.known, h.item, h.asked, fun d hd => ?_, fun hc => absurd hc hp.2⟩
  have hnone : foundIn (e.enter phase).phase = none := hp.1
  rw [hnone] at hd
  cases hd

theorem linked_fresh {threadId : String} {turnId itemId : Uuid} (hk : Known threadId turnId db)
    (ho : Owns turnId itemId db) {mode : ApprovalMode} {handler : Bool} {name : String}
    {arguments : Json} :
    ExecutionLinked { threadId, turnId, mode, handler, itemId, name, arguments } db := by
  refine ⟨hk, ho, fun a ha => ?_, fun d hd => ?_, fun hc => hc.elim⟩
  · cases ha
  · cases hd

theorem linked_fail (h : ExecutionLinked e db) (message : String) :
    ExecutionLinked (e.fail message) db := linked_enter h ⟨rfl, id⟩

theorem linked_found (h : ExecutionLinked e db) {phase : Phase} {d : Decision}
    (hphase : foundIn phase = some d) (hc : ¬ Cleared phase) (hd : d ≠ .pending)
    (hdecided : Decided e d db) : ExecutionLinked (e.enter phase) db := by
  refine ⟨h.known, h.item, h.asked, fun d' hd' => ?_, fun hc' => absurd hc' hc⟩
  have hsome : foundIn (e.enter phase).phase = some d := hphase
  rw [hsome] at hd'
  obtain rfl := Option.some.inj hd'
  exact ⟨hd, hdecided⟩

theorem linked_decided (h : ExecutionLinked e db) {d : Decision} (hdecided : Decided e d db) :
    ExecutionLinked (e.decided d) db := by
  unfold Execution.decided
  split
  · next hd =>
    subst hd
    exact linked_cleared h rfl fun _ => hdecided
  · exact linked_fail h _

theorem linked_transact (h : ExecutionLinked e db) (hg : Grows db (e.transact body k db).2)
    (hk : ∀ b db', body db = .ok (b, db') → Grows db db' → ExecutionLinked (k b) db') :
    ExecutionLinked (e.transact body k db).1 (e.transact body k db).2 := by
  unfold Execution.transact at hg ⊢
  rcases transaction_eq body db with ⟨b, db', hb, -, he⟩ | ⟨err, he⟩
  · rw [he] at hg ⊢
    exact hk b db' hb hg
  · rw [he]
    exact linked_fail h _

theorem does_transact (hc : w.db.Constraints)
    (h : ∀ b db', body w.db = .ok (b, db') → Change uuids w op db') :
    Does uuids w op (e.transact body k w.db).2 := by
  rw [transact_snd]
  exact does_transaction hc h

theorem change_expireApproval (hc : w.db.Constraints) {threadId : String} {turnId approvalId : Uuid}
    {r : Approval} (hr : r ∈ w.db.approvals) (hid : r.id = approvalId) (hturn : r.turnId = turnId)
    {d : Decision} (h : expireApproval env threadId turnId approvalId w.db = .ok (d, db')) :
    Change uuids w op db' := by
  unfold expireApproval at h
  split at h
  · cases h
  · next a ha =>
    obtain ⟨hmem, haid⟩ := (lookup_eq_some_iff hc.approvals).mp ha
    obtain rfl := hc.approvals.eq_of_key hmem hr (haid.trans hid.symm)
    split at h
    · next hp =>
      subst hid hturn
      exact .expires hmem hp (Prod.mk.inj (Except.ok.inj h)).2.symm
    · exact .quiet (.idle (Prod.mk.inj (Except.ok.inj h)).2.symm)

theorem does_advance (hc : w.db.Constraints) {j : ℕ} {m : Meets}
    (he : w.executions[j]? = some e) (hl : ExecutionLinked e w.db) :
    Does uuids w (.step env j m) (e.advance env (uuids.draw w.drawn) m w.db).2 := by
  have hquiet : Does uuids w (.step env j m) w.db := does_nothing hc
  unfold Execution.advance
  split
  · next hphase =>
    split_ifs
    · refine does_transact hc fun u db' h => ?_
      obtain ⟨ha, hr⟩ := whileActive_ok h
      exact .asks rfl he hphase ha (Prod.mk.inj hr).2
    · exact hquiet
  · exact does_transact hc fun u db' h => .quiet (.checkpoints rfl h)
  · next hphase =>
    unfold Execution.handle
    split
    · exact hquiet
    · exact hquiet
    · next a decision ha hm =>
      exact does_transact hc fun d db' h => change_respond hc (.handler he hphase ha rfl hm) h
  · split_ifs
    · exact hquiet
    · exact hquiet
  · exact hquiet
  · exact hquiet
  · unfold Execution.expire
    split
    · exact hquiet
    · next a ha =>
      obtain ⟨r, hr, hid, hturn, -⟩ := hl.asked a ha
      exact does_transact hc fun d db' h => change_expireApproval hc hr hid hturn h
  · split_ifs
    · exact hquiet
    · exact hquiet
  · next hphase => exact does_transact hc fun u db' h => .resumes rfl he hphase h
  · exact does_transact hc fun u db' h => .quiet (.checkpoints rfl h)
  · split_ifs
    · exact hquiet
    · exact hquiet
  · exact hquiet
  · next hphase =>
    exact does_transaction hc fun u db' h => change_completeItem (.execution he hphase) h
  · exact hquiet

theorem decided_expireApproval (hc : db.Constraints) {threadId : String} {a : Asked}
    (ha : a ∈ e.asked) (hasked : ∃ r ∈ db.approvals, AskedRow e a r) {d : Decision}
    (h : expireApproval env threadId e.turnId a.approvalId db = .ok (d, db')) :
    d ≠ .pending ∧ Decided e d db' := by
  obtain ⟨r, hr, hrow⟩ := hasked
  unfold expireApproval at h
  split at h
  · cases h
  · next r' hr' =>
    obtain ⟨hmem, hid⟩ := (lookup_eq_some_iff hc.approvals).mp hr'
    obtain rfl := hc.approvals.eq_of_key hmem hr (hid.trans hrow.1.symm)
    split at h
    · obtain ⟨rfl, rfl⟩ := Prod.mk.inj (Except.ok.inj h)
      have hmem' : { r' with decision := .expired } ∈
          (resolved env threadId e.turnId a.approvalId .expired db).approvals :=
        mem_updateWhere.mpr ⟨r', hmem, if_pos hid⟩
      exact ⟨Decision.noConfusion, a, ha, _, hmem', hrow, rfl⟩
    · next hp =>
      obtain ⟨rfl, rfl⟩ := Prod.mk.inj (Except.ok.inj h)
      exact ⟨hp, a, ha, r', hmem, hrow, rfl⟩

theorem linked_request (h : ExecutionLinked e db) {fresh : Uuid} {u : Unit} (hg : Grows db db')
    (hr : requestApproval env fresh e.threadId e.turnId e.itemId e.name e.arguments db =
      .ok (u, db')) :
    ExecutionLinked { e with
      asked := some ⟨fresh, digestOf env e.name e.arguments⟩
      phase := .requested } db' := by
  obtain ⟨-, hdb⟩ := whileActive_ok hr
  have hdb' := (Prod.mk.inj hdb).2
  refine ⟨h.known.grows hg, h.item.grows hg, fun a ha => ?_, fun d hd => ?_, fun hp => hp.elim⟩
  · obtain rfl := Option.some.inj ha
    refine ⟨⟨fresh, e.turnId, e.itemId, digestOf env e.name e.arguments,
      safe env.host (actionOf e.name e.arguments), .pending, env.now⟩, ?_, rfl, rfl, rfl, rfl⟩
    rw [hdb']
    exact List.mem_append_right _ (List.mem_singleton.mpr rfl)
  · cases hd

/-- **A step of an execution keeps what it knows.** -/
theorem linked_advance (hc : db.Constraints) (h : ExecutionLinked e db) {fresh : Uuid} {m : Meets}
    (hg : Grows db (e.advance env fresh m db).2) :
    ExecutionLinked (e.advance env fresh m db).1 (e.advance env fresh m db).2 := by
  unfold Execution.advance at hg ⊢
  split at hg
  · split_ifs at hg ⊢ with hn
    · exact linked_transact h hg fun u db' hb hg' => linked_request h hg' hb
    · exact linked_cleared h rfl fun hn' => absurd hn' hn
  · refine linked_transact h hg fun u db' _ hg' => ?_
    split_ifs
    · exact linked_enter (h.grows hg') ⟨rfl, id⟩
    · exact linked_enter (h.grows hg') ⟨rfl, id⟩
  · unfold Execution.handle at hg ⊢
    split at hg
    · exact linked_fail h _
    · exact linked_fail h _
    · exact linked_transact h hg fun d db' _ hg' => linked_enter (h.grows hg') ⟨rfl, id⟩
  · split_ifs
    · exact linked_fail h _
    · exact linked_enter h ⟨rfl, id⟩
  · change ExecutionLinked (e.check db) db
    unfold Execution.check
    split
    · exact linked_fail h _
    · split_ifs
      · exact linked_enter h ⟨rfl, id⟩
      · exact linked_fail h _
  · change ExecutionLinked (e.read m.late db) db
    unfold Execution.read
    split
    · exact linked_fail h _
    · next r hr =>
      obtain ⟨a, ha, hr⟩ := Option.bind_eq_some_iff.mp hr
      obtain ⟨hmem, hid⟩ := (lookup_eq_some_iff hc.approvals).mp hr
      obtain ⟨r', hr', hrow⟩ := h.asked a ha
      obtain rfl := hc.approvals.eq_of_key hmem hr' (hid.trans hrow.1.symm)
      split_ifs with hp
      · exact linked_found h rfl id hp ⟨a, ha, r, hmem, hrow, rfl⟩
      · exact linked_enter h ⟨rfl, id⟩
      · exact linked_enter h ⟨rfl, id⟩
  · unfold Execution.expire at hg ⊢
    split at hg
    · exact linked_fail h _
    · next a ha =>
      refine linked_transact h hg fun d db' hb hg' => ?_
      obtain ⟨hd, hdecided⟩ := decided_expireApproval hc ha (h.asked a ha) hb
      exact linked_found (h.grows hg') rfl id hd hdecided
  · next d hphase =>
    obtain ⟨hd, hdecided⟩ := h.found d (by rw [hphase]; rfl)
    split_ifs
    · exact linked_decided h hdecided
    · exact linked_found h rfl id hd hdecided
  · next d hphase =>
    obtain ⟨hd, hdecided⟩ := h.found d (by rw [hphase]; rfl)
    exact linked_transact h hg fun u db' _ hg' =>
      linked_found (h.grows hg') rfl id hd (hdecided.grows hd hg')
  · next d hphase =>
    obtain ⟨hd, hdecided⟩ := h.found d (by rw [hphase]; rfl)
    exact linked_transact h hg fun u db' _ hg' =>
      linked_decided (h.grows hg') (hdecided.grows hd hg')
  · next hphase =>
    split_ifs
    · exact linked_fail h _
    · refine linked_cleared h rfl fun hn => ?_
      have hcleared : Cleared e.phase := by
        rw [hphase]
        trivial
      exact h.cleared hcleared hn
  · change ExecutionLinked (e.act m.result) db
    unfold Execution.act
    split
    · exact linked_fail h _
    · exact linked_enter h ⟨rfl, id⟩
  · exact linked_enter (h.grows hg) ⟨rfl, id⟩
  · exact h

end Executions

/-! ### Other calls -/

theorem does_rest (hc : w.db.Constraints) {j : ℕ} {c : Rest} (hcall : w.calls[j]? = some c)
    (hl : RestLinked w.db c) :
    Does uuids w (.rest env j) (c.advance env (uuids.draw w.drawn) w.db).2 := by
  cases c with
  | record threadId turnId kind payload =>
    have hitem : Does uuids w (.rest env j)
        (transaction (item env (uuids.draw w.drawn) threadId turnId kind payload) w.db).2 :=
      does_transaction hc fun u db' h => change_item (.record hcall) h
    simp only [Rest.advance]
    split
    · next he =>
      rw [he] at hitem
      exact hitem
    · next he =>
      rw [he] at hitem
      exact hitem
  | complete threadId turnId itemId payload =>
    exact does_transaction hc fun u db' h => change_completeItem (.record hcall) h
  | delta threadId turnId messageId text =>
    exact does_transaction hc fun u db' h => change_delta hc hl.2 h
  | endActive threadId => exact does_transaction hc fun u db' h => .interrupts rfl hcall h
  | refresh id request => exact does_transaction hc fun u db' h => .quiet (.refreshes rfl hcall h)
  | nothing => exact does_nothing hc

theorem owns_item {itemId : Uuid} {threadId : String} {turnId : Uuid} {kind : String}
    {payload : Json} {u : Unit} (h : item env itemId threadId turnId kind payload db = .ok (u, db')) :
    Owns turnId itemId db' := by
  obtain ⟨-, hr⟩ := whileActive_ok h
  rw [(Prod.mk.inj hr).2]
  exact ⟨_, List.mem_append_right _ (List.mem_singleton.mpr rfl), rfl, rfl⟩

theorem linked_rest {fresh : Uuid} {c : Rest} (h : RestLinked db c)
    (hg : Grows db (c.advance env fresh db).2) :
    RestLinked (c.advance env fresh db).2 (c.advance env fresh db).1 := by
  cases c with
  | record threadId turnId kind payload =>
    simp only [Rest.advance] at hg ⊢
    rcases transaction_eq (item env fresh threadId turnId kind payload) db with
      ⟨u, db', hb, -, he⟩ | ⟨err, he⟩
    · rw [he] at hg ⊢
      exact ⟨Known.grows h hg, owns_item hb⟩
    · rw [he]
      trivial
  | complete => trivial
  | delta => trivial
  | endActive => trivial
  | refresh => trivial
  | nothing => trivial

/-! ### Steps -/

theorem does_write (hc : w.db.Constraints) {β : Type} {body : SessionDb → Except Err (β × SessionDb)}
    (h : ∀ b db', body w.db = .ok (b, db') → Change uuids w op db') : Does uuids w op (w.write body).db :=
  does_transaction hc h

theorem andThen_cases {β : Type} (w : World) (body : SessionDb → Except Err (β × SessionDb))
    (k : β → World → World) :
    (∃ b db', body w.db = .ok (b, db') ∧ db'.Constraints ∧
      w.andThen body k = k b { w with db := db', drawn := w.drawn + 1 }) ∨
    w.andThen body k = { w with drawn := w.drawn + 1 } := by
  unfold World.andThen
  rcases transaction_eq body w.db with ⟨b, db', hb, hv, he⟩ | ⟨e, he⟩
  · rw [he]
    exact Or.inl ⟨b, db', hb, hv, rfl⟩
  · rw [he]
    exact Or.inr rfl

theorem does_andThen (hc : w.db.Constraints) {β : Type} {body : SessionDb → Except Err (β × SessionDb)}
    {k : β → World → World} (hk : ∀ b w, (k b w).db = w.db)
    (h : ∀ b db', body w.db = .ok (b, db') → Change uuids w op db') :
    Does uuids w op (w.andThen body k).db := by
  rcases andThen_cases w body k with ⟨b, db', hb, hv, he⟩ | he
  · rw [he, hk]
    exact ⟨h b db' hb, hv⟩
  · rw [he]
    exact does_nothing hc

theorem does_textDelta (hl : Linked w) {k : ℕ} {p : ProtocolTurn} (hp : w.turns[k]? = some p)
    {text : String} : Does uuids w op (w.textDelta env (uuids.draw w.drawn) k p text).db := by
  have hc := hl.constraints
  unfold World.textDelta
  split
  · next m hm =>
    have howns := (hl.turns p (List.mem_of_getElem? hp)).message m hm
    exact does_write hc fun u db' h => change_delta hc howns h
  · exact does_andThen hc (fun _ _ => rfl) fun u db' h => change_item .message h

theorem does_onTurn (hc : w.db.Constraints) {k : ℕ} {call : ProtocolTurn → World}
    (h : ∀ p, w.turns[k]? = some p → Does uuids w op (call p).db) :
    Does uuids w op (w.onTurn k call).db := by
  unfold World.onTurn
  split
  · exact does_nothing hc
  · next p hp => exact h p hp

/-- **Every step is a change of the ledger.** -/
theorem does_next (hl : Linked w) (op : Op) : Does uuids w op (next uuids w op).db := by
  have hc := hl.constraints
  cases op with
  | createOrGet env id request =>
    rw [next]
    exact does_write hc fun _ _ h => .quiet (.creates rfl h)
  | startTurn env id request =>
    exact does_andThen hc (fun _ _ => rfl) fun _ _ h => .quiet (.creates rfl h)
  | appendEvent env id kind payload =>
    exact does_write hc fun _ _ h => .quiet (.appends rfl h)
  | checkpoint env id c => exact does_write hc fun _ _ h => .quiet (.checkpoints rfl h)
  | requestCancel env id reason =>
    exact does_write hc fun _ _ h => .quiet (.cancels rfl h)
  | begin env threadId request mode handler =>
    exact does_andThen hc (fun _ _ => rfl) fun _ _ h => change_begin h
  | respond env threadId approvalId turnId sha256 decision =>
    exact does_write hc fun _ _ h => change_respond hc .client h
  | interrupt env threadId =>
    exact does_andThen hc (fun _ _ => rfl) fun _ _ h => .quiet (.cancels rfl h)
  | bindExecution k sessionId workspace =>
    exact does_onTurn hc fun p hp => does_nothing hc
  | item env k kind payload =>
    exact does_onTurn hc fun p hp => does_write hc fun _ _ h => change_item (.item hp) h
  | completeItem env k itemId payload failed =>
    exact does_onTurn hc fun p hp => does_write hc fun _ _ h => change_completeItem (.item hp) h
  | execute env k name arguments =>
    exact does_onTurn hc fun p hp => does_andThen hc (fun _ _ => rfl) fun _ _ h =>
      change_item .action h
  | textDelta env k text => exact does_onTurn hc fun p hp => does_textDelta hl hp
  | progress env k kind data =>
    refine does_onTurn hc fun p hp => ?_
    unfold World.progress
    split
    · exact does_textDelta hl hp
    · split
      · next hkind =>
        have hknown := (hl.turns p (List.mem_of_getElem? hp)).known
        exact does_write hc fun _ _ h => .progresses rfl hp hkind hknown h
      · exact does_nothing hc
  | finish env k status answer =>
    exact does_onTurn hc fun p hp => does_andThen hc (fun _ _ => rfl) fun _ _ h =>
      change_finish hp h
  | step env j m =>
    simp only [next]
    split
    · exact does_nothing hc
    · next e he => exact does_advance hc he (hl.executions e (List.mem_of_getElem? he))
  | rest env j =>
    simp only [next]
    split
    · exact does_nothing hc
    · next c hcall => exact does_rest hc hcall (hl.calls c (List.mem_of_getElem? hcall))

/-! ### Links along a run -/

theorem linked_of_does (hl : Linked w) (hd : Does uuids w op w'.db)
    (ht : ∀ p ∈ w'.turns, p ∈ w.turns ∨ TurnLinked w'.db p)
    (he : ∀ e ∈ w'.executions, e ∈ w.executions ∨ ExecutionLinked e w'.db)
    (hcalls : ∀ c ∈ w'.calls, c ∈ w.calls ∨ RestLinked w'.db c) : Linked w' := by
  have hg : Grows w.db w'.db := hd.change.grows hl.constraints
  refine ⟨hd.constraints, fun p hp => ?_, fun e hmem => ?_, fun c hc => ?_⟩
  · rcases ht p hp with hp | hp
    · exact (hl.turns p hp).grows hg
    · exact hp
  · rcases he e hmem with hmem | hmem
    · exact (hl.executions e hmem).grows hg
    · exact hmem
  · rcases hcalls c hc with hc | hc
    · exact (hl.calls c hc).grows hg
    · exact hc

theorem linked_write (hl : Linked w) {β : Type} {body : SessionDb → Except Err (β × SessionDb)}
    (hd : Does uuids w op (w.write body).db) : Linked (w.write body) :=
  linked_of_does hl hd (fun _ hp => Or.inl hp) (fun _ he => Or.inl he) fun _ hc => Or.inl hc

theorem mem_modify {α : Type} {l : List α} {k : ℕ} {f : α → α} {x : α} (h : x ∈ l.modify k f) :
    x ∈ l ∨ ∃ y, l[k]? = some y ∧ x = f y := by
  obtain ⟨n, hn⟩ := List.mem_iff_getElem?.mp h
  by_cases hk : k = n
  · subst hk
    rw [List.getElem?_modify_eq] at hn
    obtain ⟨y, hy, rfl⟩ := Option.map_eq_some_iff.mp hn
    exact Or.inr ⟨y, hy, rfl⟩
  · rw [List.getElem?_modify_ne _ _ hk] at hn
    exact Or.inl (List.mem_iff_getElem?.mpr ⟨n, hn⟩)

theorem linked_idle (hl : Linked w) {n : ℕ} : Linked { w with drawn := n } :=
  ⟨hl.constraints, hl.turns, hl.executions, hl.calls⟩

theorem linked_andThen (uuids : Uuids) (op : Op) (hl : Linked w) {β : Type} {body : SessionDb → Except Err (β × SessionDb)}
    {k : β → World → World}
    (h : ∀ b db', body w.db = .ok (b, db') → Linked { w with db := db', drawn := w.drawn + 1 } →
      Grows w.db db' → Linked (k b { w with db := db', drawn := w.drawn + 1 }))
    (hchange : ∀ b db', body w.db = .ok (b, db') → Change uuids w op db') : Linked (w.andThen body k) := by
  rcases andThen_cases w body k with ⟨b, db', hb, hv, he⟩ | he
  · rw [he]
    have hdoes : Does uuids w op db' := ⟨hchange b db' hb, hv⟩
    refine h b db' hb ?_ (hdoes.change.grows hl.constraints)
    exact linked_of_does hl hdoes (fun _ hp => Or.inl hp) (fun _ he => Or.inl he) fun _ hc => Or.inl hc
  · rw [he]
    exact linked_idle hl

theorem linked_call (hl : Linked w) {c : Rest} (hc : RestLinked w.db c) : Linked (World.call c w) := by
  refine ⟨hl.constraints, hl.turns, hl.executions, fun c' hc' => ?_⟩
  rcases List.mem_append.mp hc' with hc' | hc'
  · exact hl.calls c' hc'
  · rw [List.mem_singleton.mp hc']
    exact hc

theorem linked_modify (hl : Linked w) {k : ℕ} {p : ProtocolTurn} (hp : w.turns[k]? = some p)
    {messageId : Option Uuid} (hm : ∀ m ∈ messageId, Owns p.turnId m w.db) :
    Linked { w with turns := w.turns.modify k fun turn => { turn with messageId := messageId } } := by
  refine ⟨hl.constraints, fun q hq => ?_, hl.executions, hl.calls⟩
  rcases mem_modify hq with hq | ⟨q', hq', rfl⟩
  · exact hl.turns q hq
  · obtain rfl := Option.some.inj (hq'.symm.trans hp)
    exact ⟨(hl.turns q' (List.mem_of_getElem? hp)).known, hm⟩

theorem linked_onTurn (hl : Linked w) {k : ℕ} {call : ProtocolTurn → World}
    (h : ∀ p, w.turns[k]? = some p → TurnLinked w.db p → Linked (call p)) :
    Linked (w.onTurn k call) := by
  unfold World.onTurn
  split
  · exact hl
  · next p hp => exact h p hp (hl.turns p (List.mem_of_getElem? hp))

theorem linked_textDelta (uuids : Uuids) (hl : Linked w) {k : ℕ} {p : ProtocolTurn}
    (hp : w.turns[k]? = some p) {text : String} :
    Linked (w.textDelta env (uuids.draw w.drawn) k p text) := by
  have hlinked := hl.turns p (List.mem_of_getElem? hp)
  have hdoes : Does uuids w (.textDelta env k text)
      (w.textDelta env (uuids.draw w.drawn) k p text).db := does_textDelta hl hp
  unfold World.textDelta at hdoes ⊢
  split
  · next m hm =>
    rw [hm] at hdoes
    exact linked_write hl hdoes
  · refine linked_andThen uuids (.textDelta env k text) hl (fun u db' hb hl' hg => ?_)
      fun u db' hb => change_item .message hb
    have howns : Owns p.turnId (uuids.draw w.drawn) db' := owns_item hb
    refine linked_call (linked_modify hl' hp fun m hm => ?_) ⟨hlinked.known.grows hg, howns⟩
    obtain rfl := Option.some.inj hm
    exact howns

theorem known_begin {turnId : Uuid} {threadId request mode : String} {mode' : ApprovalMode}
    (h : begin env turnId threadId request mode db = .ok (mode', db')) :
    Known threadId turnId db' := by
  have hopened : ∀ db, Known threadId turnId (opened env turnId threadId mode' db) :=
    fun db => ⟨_, List.mem_append_right _ (List.mem_singleton.mpr rfl), rfl, rfl⟩
  obtain ⟨mode'', -, h⟩ := bind_ok h
  split at h
  · cases h
  · split at h
    · obtain ⟨rfl, rfl⟩ := Prod.mk.inj (Except.ok.inj h)
      exact hopened _
    · split at h
      · obtain ⟨rfl, rfl⟩ := Prod.mk.inj (Except.ok.inj h)
        exact hopened _
      · cases h

theorem owns_answered {fresh : Uuid} {threadId : String} {turnId : Uuid} {messageId : Option Uuid}
    {answer : String} (hm : ∀ id ∈ messageId, Owns turnId id db) :
    ∀ id ∈ (answered env fresh threadId turnId messageId answer db).1,
      Owns turnId id (answered env fresh threadId turnId messageId answer db).2 := by
  have hg := grows_answered env fresh threadId turnId messageId answer db
  unfold answered at hg ⊢
  dsimp only at hg ⊢
  split_ifs at hg ⊢
  · exact hm
  · cases messageId with
    | some m => exact fun id hid => (hm id hid).grows hg
    | none =>
      intro id hid
      obtain rfl := Option.some.inj hid
      have hnew : ∀ payload, Owns turnId fresh
          (insertItem env fresh threadId turnId "agent_message" payload db) :=
        fun payload => ⟨_, List.mem_append_right _ (List.mem_singleton.mpr rfl), rfl, rfl⟩
      exact (hnew _).grows (grows_completeMessage env threadId turnId fresh _ _)

theorem owns_finish {fresh : Uuid} {threadId : String} {turnId : Uuid} {messageId m : Option Uuid}
    {status answer : String} (hm : ∀ id ∈ messageId, Owns turnId id db)
    (h : finish env fresh threadId turnId messageId status answer db = .ok (m, db')) :
    ∀ id ∈ m, Owns turnId id db' := by
  unfold finish at h
  split at h
  · cases h
  · split at h
    · obtain ⟨rfl, rfl⟩ := Prod.mk.inj (Except.ok.inj h)
      exact fun id hid => (owns_answered hm id hid).grows
        (grows_endTurn env threadId turnId (not_active_finished _ status) _)
    · obtain ⟨rfl, rfl⟩ := Prod.mk.inj (Except.ok.inj h)
      exact hm

theorem linked_step (uuids : Uuids) (hl : Linked w) (env : Env) {j : ℕ} (m : Meets) {e : Execution}
    (he : w.executions[j]? = some e) :
    Linked { w with
      db := (e.advance env (uuids.draw w.drawn) m w.db).2
      drawn := w.drawn + 1
      executions := w.executions.set j (e.advance env (uuids.draw w.drawn) m w.db).1 } := by
  have hlinked := hl.executions e (List.mem_of_getElem? he)
  have hdoes : Does uuids w (.step env j m) (e.advance env (uuids.draw w.drawn) m w.db).2 :=
    does_advance hl.constraints he hlinked
  have hg := hdoes.change.grows hl.constraints
  refine linked_of_does hl hdoes (fun _ hp => Or.inl hp) (fun e' he' => ?_) fun _ hc => Or.inl hc
  rcases List.mem_or_eq_of_mem_set he' with he' | rfl
  · exact Or.inl he'
  · exact Or.inr (linked_advance hl.constraints hlinked hg)

theorem linked_restStep (uuids : Uuids) (hl : Linked w) (env : Env) {j : ℕ} {c : Rest}
    (hc : w.calls[j]? = some c) :
    Linked { w with
      db := (c.advance env (uuids.draw w.drawn) w.db).2
      drawn := w.drawn + 1
      calls := w.calls.set j (c.advance env (uuids.draw w.drawn) w.db).1 } := by
  have hlinked := hl.calls c (List.mem_of_getElem? hc)
  have hdoes : Does uuids w (.rest env j) (c.advance env (uuids.draw w.drawn) w.db).2 :=
    does_rest hl.constraints hc hlinked
  have hg := hdoes.change.grows hl.constraints
  refine linked_of_does hl hdoes (fun _ hp => Or.inl hp) (fun _ he => Or.inl he) fun c' hc' => ?_
  rcases List.mem_or_eq_of_mem_set hc' with hc' | rfl
  · exact Or.inl hc'
  · exact Or.inr (linked_rest hlinked hg)

/-- **Every step keeps the links.** -/
theorem linked_next (hl : Linked w) (op : Op) : Linked (next uuids w op) := by
  have hc := hl.constraints
  have hdoes : Does uuids w op (next uuids w op).db := does_next hl op
  cases op with
  | createOrGet env id request => exact linked_write hl hdoes
  | startTurn env id request =>
    exact linked_andThen uuids (.startTurn env id request) hl (fun _ _ _ hl' _ => linked_call hl' trivial)
      fun _ _ h => .quiet (.creates rfl h)
  | appendEvent env id kind payload => exact linked_write hl hdoes
  | checkpoint env id c => exact linked_write hl hdoes
  | requestCancel env id reason => exact linked_write hl hdoes
  | begin env threadId request mode handler =>
    rw [next]
    refine linked_andThen uuids (.begin env threadId request mode handler) hl (fun mode' db' hb hl' _ => ?_)
      fun _ _ h => change_begin h
    have hknown := known_begin hb
    refine linked_call ?_ ?_
    · refine ⟨hl'.constraints, fun p hp => ?_, hl'.executions, hl'.calls⟩
      rcases List.mem_append.mp hp with hp | hp
      · exact hl'.turns p hp
      · rw [List.mem_singleton.mp hp]
        exact ⟨hknown, fun m hm => by cases hm⟩
    · exact hknown
  | respond env threadId approvalId turnId sha256 decision => exact linked_write hl hdoes
  | interrupt env threadId =>
    exact linked_andThen uuids (.interrupt env threadId) hl (fun _ _ _ hl' _ => linked_call hl' trivial)
      fun _ _ h => .quiet (.cancels rfl h)
  | bindExecution k sessionId workspace =>
    exact linked_onTurn hl fun p _ hp => linked_call hl hp.known
  | item env k kind payload =>
    refine linked_onTurn hl fun p hp _ => ?_
    have hwrite : Does uuids w (.item env k kind payload)
        (w.write (item env (uuids.draw w.drawn) p.threadId p.turnId kind payload)).db :=
      does_write hc fun _ _ h => change_item (.item hp) h
    exact linked_write hl hwrite
  | completeItem env k itemId payload failed =>
    refine linked_onTurn hl fun p hp _ => ?_
    have hwrite : Does uuids w (.completeItem env k itemId payload failed)
        (w.write (completeItem env p.threadId p.turnId itemId payload
          (if failed then .failed else .completed))).db :=
      does_write hc fun _ _ h => change_completeItem (.item hp) h
    exact linked_write hl hwrite
  | execute env k name arguments =>
    refine linked_onTurn hl fun p _ hp => ?_
    refine linked_andThen uuids (.execute env k name arguments) hl (fun u db' hb hl' hg => ?_)
      fun _ _ h => change_item .action h
    refine ⟨hl'.constraints, hl'.turns, fun e he => ?_, hl'.calls⟩
    rcases List.mem_append.mp he with he | he
    · exact hl'.executions e he
    · rw [List.mem_singleton.mp he]
      exact linked_fresh (hp.known.grows hg) (owns_item hb)
  | textDelta env k text => exact linked_onTurn hl fun p hp _ => linked_textDelta uuids hl hp
  | progress env k kind data =>
    refine linked_onTurn hl fun p hp hlinked => ?_
    unfold World.progress
    split
    · exact linked_textDelta uuids hl hp
    · split
      · next hkind =>
        have hwrite : Does uuids w (.progress env k kind data)
            (w.write (Protocol.progress env p.threadId p.turnId kind data)).db :=
          does_write hc fun _ _ h => .progresses rfl hp hkind hlinked.known h
        exact linked_write hl hwrite
      · exact hl
  | finish env k status answer =>
    refine linked_onTurn hl fun p hp hlinked => ?_
    refine linked_andThen uuids (.finish env k status answer) hl (fun m db' hb hl' _ => ?_)
      fun _ _ h => change_finish hp h
    exact linked_modify hl' hp (owns_finish hlinked.message hb)
  | step env j m =>
    simp only [next]
    split
    · exact hl
    · next e he => exact linked_step uuids hl env m he
  | rest env j =>
    simp only [next]
    split
    · exact hl
    · next c hcall => exact linked_restStep uuids hl env hcall

theorem linked_empty : Linked {} := by
  refine ⟨by decide, fun p hp => ?_, fun e he => ?_, fun c hc => ?_⟩
  · cases hp
  · cases he
  · cases hc

theorem linked_after (uuids : Uuids) (ops : List Op) : Linked (after uuids ops) :=
  inv_run (I := Linked) (G := fun _ _ => True) (fun _ op hl _ => linked_next hl op) linked_empty
    (along_of_forall fun _ _ => trivial)

theorem along_of_linked {P : World → Op → Prop} (h : ∀ w op, Linked w → P w op) (ops : List Op) :
    Along (next uuids) P {} ops :=
  along_of_inv (I := Linked) (G := fun _ _ => True) (fun _ op hl _ => linked_next hl op)
    (fun w op hl _ => h w op hl) linked_empty (along_of_forall fun _ _ => trivial)

end Smara.Session.Links
