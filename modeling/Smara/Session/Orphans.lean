import Smara.Session.Approvals
import Smara.Session.Fences

/-! # Approvals that are left behind

`_approve` inserts the row of the approval and the status `waiting_approval` of the turn in one
transaction, and clears them on several ways out: the handler and `respond`, the loop with its timeout,
and the count of what is pending. An exception between them skips the clearing. `Attended` says of a
step that it raises nothing there while the turn is active.

* `attending_next`: a row that is pending belongs to an execution that looks for its decision, and a
  turn that waits has an execution that waits.
* `no_orphans`: in a run of attended steps an execution leaves nothing behind.
* `not_cleared_after_raise`: a handler that raises leaves the row pending and the turn waiting. -/

namespace Smara.Session.Orphans

open Lib.Machine Lib.Table Lib.Transaction
open TaskStore.Schema (Uuid Digest)
open Goals.Schema (Json Uuids)
open Session.Schema Session.Envelope Session.Protocol Session.Steps
open Session.Effects Session.Links Session.Approvals Session.Endings
open Session.Rows Session.Fences

variable {uuids : Uuids} {w : World} {op : Op} {db db' : SessionDb} {env : Env} {e : Execution}
  {fresh : Uuid} {m : Meets}

/-! ### Executions that wait -/

/-- The execution looks for the decision. -/
def seeks : Phase → Bool
  | .requested | .handing | .polling | .checking | .reading | .expiring => true
  | _ => false

/-- The execution has asked, and has not yet put its turn back to running. -/
def waits : Phase → Bool
  | .counting _ | .resuming _ => true
  | phase => seeks phase

theorem waits_of_seeks {phase : Phase} (h : seeks phase) : waits phase := by
  cases phase with
  | counting | resuming => rfl
  | _ => exact h

/-- `respond` accepts what the handler returns. -/
structure Accepts (host : Host) (e : Execution) (a : Asked) (handled : Called String)
    (db : SessionDb) : Prop where
  decision : handled = .returns "allow" ∨ handled = .returns "deny"
  cancel : shouldCancel e.threadId db = false
  owner : ∀ t ∈ db.turn e.turnId, ¬ Orphaned host t
  row : ∀ r ∈ db.approval a.approvalId, r.decision = .pending ∨ handled = .returns r.decision.text

/-- If another execution of the turn waits, something of the turn is pending. -/
def Awaited (w : World) (j : ℕ) (turnId : Uuid) : Prop :=
  ∀ e ∈ w.executions.eraseIdx j, e.turnId = turnId → waits e.phase → Pending turnId w.db

instance (host : Host) (e : Execution) (a : Asked) (handled : Called String) (db : SessionDb) :
    Decidable (Accepts host e a handled db) :=
  decidable_of_iff ((handled = .returns "allow" ∨ handled = .returns "deny") ∧
      shouldCancel e.threadId db = false ∧ (∀ t ∈ db.turn e.turnId, ¬ Orphaned host t) ∧
      ∀ r ∈ db.approval a.approvalId, r.decision = .pending ∨ handled = .returns r.decision.text)
    ⟨fun ⟨h₁, h₂, h₃, h₄⟩ => ⟨h₁, h₂, h₃, h₄⟩, fun ⟨h₁, h₂, h₃, h₄⟩ => ⟨h₁, h₂, h₃, h₄⟩⟩

/-- What the next step of an execution finds: the handler is accepted, the turn is not cancelled, and
no other execution of the turn is about to put it back to running. -/
def Smooth (w : World) (host : Host) (j : ℕ) (m : Meets) (e : Execution) : Prop :=
  match e.phase with
  | .handing => ∀ a ∈ e.asked, Accepts host e a m.handled w.db
  | .polling => shouldCancel e.threadId w.db = false
  | .closing _ _ => Awaited w j e.turnId
  | _ => True

instance (w : World) (host : Host) (j : ℕ) (m : Meets) (e : Execution) :
    Decidable (Smooth w host j m e) := by
  unfold Smooth Awaited
  split <;> infer_instance

/-- **A step raises nothing while an approval of the active turn waits**, and no execution ends while
another one of its turn has found its decision and has not yet put the turn back to running. -/
def Attended (w : World) : Op → Prop
  | .step env j m => ∀ e ∈ w.executions[j]?, Active e.turnId w.db → Smooth w env.host j m e
  | _ => True

instance (w : World) (op : Op) : Decidable (Attended w op) := by
  unfold Attended
  split <;> infer_instance

/-! ### Transactions that commit -/

theorem constraints_resolved (hc : db.Constraints) {threadId : String} {turnId approvalId : Uuid}
    {decision : Decision} : (resolved env threadId turnId approvalId decision db).Constraints := by
  refine ⟨hc.sessions, hc.sessionEvents, hc.turns, hc.single, hc.items, ?_⟩
  refine (keyed_updateWhere ?_).mpr hc.approvals
  exact fun _ _ => rfl

theorem constraints_resumeTurn (hc : db.Constraints) {turnId : Uuid} {u : Unit}
    (h : resumeTurn turnId db = .ok (u, db')) : db'.Constraints := by
  obtain rfl := (Prod.mk.inj (Except.ok.inj h)).2
  refine ⟨hc.sessions, hc.sessionEvents, ?_, ?_, hc.items, hc.approvals⟩
  · refine (keyed_updateWhere ?_).mpr hc.turns
    exact fun _ _ => rfl
  · have hfilter := filter_updateWhere (p := fun t : Turn => t.id = turnId ∧ t.status = .waitingApproval)
      (f := fun t => { t with status := .running }) (q := fun t => t.status.Active) (t := db.turns)
      fun t hp => iff_of_true (Or.inl rfl) (Or.inr hp.2)
    change Keyed Turn.threadId ((updateWhere _ _ db.turns).filter fun t => t.status.Active)
    rw [hfilter]
    refine (keyed_updateWhere ?_).mpr hc.single
    exact fun _ _ => rfl

theorem respond_commits (hl : ExecutionLinked e db) (hc : db.Constraints) {a : Asked} (ha : a ∈ e.asked)
    (hactive : Active e.turnId db) {handled : Called String} (h : Accepts env.host e a handled db) :
    ∃ text d db', handled = .returns text ∧
      transaction (respond env e.threadId a.approvalId e.turnId a.digest text) db = (.ok d, db') := by
  obtain ⟨text, decision, hhandled, hd, htext⟩ : ∃ text decision, handled = .returns text ∧
      clientDecision text = .ok decision ∧ decision.text = text := by
    rcases h.decision with hh | hh
    · exact ⟨"allow", .allow, hh, rfl, rfl⟩
    · exact ⟨"deny", .deny, hh, rfl, rfl⟩
  obtain ⟨r, hr, hid, hturn, -, hdigest⟩ := hl.asked a ha
  obtain ⟨t, ht, hstatus⟩ := hactive
  obtain ⟨t', ht', htid, hthread⟩ := hl.known
  obtain ⟨hmem, htid'⟩ := (lookup_eq_some_iff hc.turns).mp ht
  obtain rfl := hc.turns.eq_of_key hmem ht' (htid'.trans htid.symm)
  have happroval : db.approval a.approvalId = some r := (lookup_eq_some_iff hc.approvals).mpr ⟨hr, hid⟩
  have hrow : approvalRow a.approvalId db = some (r, t) := by
    unfold approvalRow
    rw [happroval]
    change (do let t ← db.turn r.turnId; some (r, t)) = some (r, t)
    rw [hturn, ht]
    rfl
  refine ⟨text, ?_⟩
  have hok : ∃ d db', respond env e.threadId a.approvalId e.turnId a.digest text db = .ok (d, db') ∧
      db'.Constraints := by
    unfold respond
    rw [hd, hrow]
    dsimp only [Bind.bind, Except.bind]
    have hmatch : ¬ (t.threadId ≠ e.threadId ∨ r.turnId ≠ e.turnId ∨ r.actionSha256 ≠ a.digest) := by
      simp [hthread, hturn, hdigest]
    have hlive : ¬ (¬ t.status.Active ∨ shouldCancel e.threadId db = true ∨ Orphaned env.host t) := by
      rintro (h' | h' | h')
      · exact h' hstatus
      · rw [h.cancel] at h'
        cases h'
      · exact h.owner t ht h'
    rw [if_neg hmatch, if_neg hlive]
    rcases h.row r happroval with hp | hp
    · rw [if_pos hp]
      exact ⟨_, _, rfl, constraints_resolved hc⟩
    · split_ifs with hp' hsame
      · exact ⟨_, _, rfl, constraints_resolved hc⟩
      · exact ⟨_, _, rfl, hc⟩
      · rw [hhandled] at hp
        have hname : text = r.decision.text := Called.returns.inj hp
        refine absurd ?_ hsame
        rw [← htext] at hname hd
        revert hname hd
        cases decision <;> cases r.decision <;> simp [Decision.text, clientDecision]
  obtain ⟨d, db', hok, hc'⟩ := hok
  exact ⟨d, db', hhandled, commit_of_ok hok hc'⟩

/-! ### The steps of an execution that waits -/

theorem transact_commits {β : Type} {body : SessionDb → Except Err (β × SessionDb)} {b : β}
    {k : β → Execution} (h : transaction body db = (.ok b, db')) : e.transact body k db = (k b, db') := by
  unfold Execution.transact
  rw [h]

/-- What a step finds of the execution and of the ledger. -/
structure Standing (e : Execution) (db : SessionDb) : Prop where
  constraints : db.Constraints
  sound : Sound db
  counted : Counted db
  linked : ExecutionLinked e db
  session : (db.session e.threadId).isSome

/-- Where a step leaves an execution that looks for the decision. -/
inductive Sought (e : Execution) (db : SessionDb) (e' : Execution) : Prop
  | seeks (hphase : seeks e'.phase)
  | finds {d} (hphase : e'.phase = .counting d)
  | leaves (hactive : ¬ Active e.turnId db)

/-- The conditions of `Attended` on an execution that looks for the decision. -/
def Heeds (host : Host) (m : Meets) (e : Execution) (db : SessionDb) : Prop :=
  Active e.turnId db → (e.phase = .handing → ∀ a ∈ e.asked, Accepts host e a m.handled db) ∧
    (e.phase = .polling → shouldCancel e.threadId db = false)

theorem report_commits (h : Standing e db) {status : String} {k : Execution}
    (hstatus : (sessionStatus status).isSome) :
    ∃ db', Execution.report env status k e db = (k, db') := by
  obtain ⟨s, hs⟩ := Option.isSome_iff_exists.mp hstatus
  have hnamed : Checkpoint.named { status := some status, expectedTurnId := some e.turnId } =
      .ok (some s) := by
    unfold Checkpoint.named
    dsimp only
    rw [hs]
  obtain ⟨db', hcommit⟩ := checkpoint_commits h.constraints h.counted h.session hnamed
  exact ⟨db', transact_commits hcommit⟩

theorem approval_of_asked (h : Standing e db) {a : Asked} (ha : a ∈ e.asked) :
    ∃ r, db.approval a.approvalId = some r := by
  obtain ⟨r, hr, hid, -⟩ := h.linked.asked a ha
  exact ⟨r, (lookup_eq_some_iff h.constraints.approvals).mpr ⟨hr, hid⟩⟩

theorem expire_commits (h : Standing e db) {a : Asked} (ha : a ∈ e.asked) :
    ∃ d db', transaction (expireApproval env e.threadId e.turnId a.approvalId) db = (.ok d, db') := by
  obtain ⟨r, hrow⟩ := approval_of_asked h ha
  have hok : ∃ d db', expireApproval env e.threadId e.turnId a.approvalId db = .ok (d, db') ∧
      db'.Constraints := by
    unfold expireApproval
    rw [hrow]
    dsimp only
    split_ifs
    · exact ⟨_, _, rfl, constraints_resolved h.constraints⟩
    · exact ⟨_, _, rfl, h.constraints⟩
  obtain ⟨d, db', hok, hc⟩ := hok
  exact ⟨d, db', commit_of_ok hok hc⟩

variable (env fresh m) in
/-- **A step of an execution that looks for the decision**, under the conditions of `Attended`. -/
theorem sought_advance (h : Standing e db) (hasked : e.asked.isSome) (hseeks : seeks e.phase)
    (hk : Heeds env.host m e db) : Sought e db (e.advance env fresh m db).1 := by
  by_cases hactive : Active e.turnId db
  swap
  · exact .leaves hactive
  obtain ⟨a, ha⟩ := Option.isSome_iff_exists.mp hasked
  obtain ⟨hhanding, hpolling⟩ := hk hactive
  unfold Execution.advance
  cases hphase : e.phase with
  | requested =>
    obtain ⟨db', hdb'⟩ : ∃ db', Execution.report env "waiting_approval"
        (if e.handler then e.enter .handing else e.enter .polling) e db = (_, db') := report_commits h rfl
    simp only [hdb']
    split_ifs
    · exact .seeks rfl
    · exact .seeks rfl
  | handing =>
    obtain ⟨text, d, db', hm, hcommit⟩ :=
      respond_commits h.linked h.constraints ha hactive (hhanding hphase a ha)
    dsimp only
    unfold Execution.handle
    rw [ha, hm]
    dsimp only
    rw [transact_commits hcommit]
    exact .seeks rfl
  | polling =>
    dsimp only
    rw [hpolling hphase]
    exact .seeks rfl
  | checking =>
    obtain ⟨t, ht, hstatus⟩ := hactive
    dsimp only
    unfold Execution.check
    rw [ht]
    dsimp only
    rw [if_pos hstatus]
    exact .seeks rfl
  | reading =>
    obtain ⟨r, hrow⟩ := approval_of_asked h ha
    dsimp only
    unfold Execution.read
    rw [ha, Option.bind_some, hrow]
    dsimp only
    split_ifs
    · exact .finds rfl
    · exact .seeks rfl
    · exact .seeks rfl
  | expiring =>
    obtain ⟨d, db', hcommit⟩ := expire_commits h ha
    dsimp only
    unfold Execution.expire
    rw [ha]
    dsimp only
    rw [transact_commits hcommit]
    exact .finds rfl
  | _ =>
    rw [hphase] at hseeks
    cases hseeks

variable (env fresh m) in
theorem counted_advance {d : Decision} (hphase : e.phase = .counting d) :
    (e.advance env fresh m db).1.phase = .resuming d ∨
      Pending e.turnId (e.advance env fresh m db).2 := by
  unfold Execution.advance
  rw [hphase]
  dsimp only
  split_ifs with hpending
  · exact Or.inr hpending
  · exact Or.inl rfl

def Waiting (turnId : Uuid) (db : SessionDb) : Prop :=
  ∃ t ∈ db.turns, t.id = turnId ∧ t.status = .waitingApproval

variable (env fresh m) in
theorem resumed_advance (hc : db.Constraints) {d : Decision} (hphase : e.phase = .resuming d) :
    ¬ Waiting e.turnId (e.advance env fresh m db).2 := by
  have hok : resumeTurn e.turnId db = .ok ((), db.updTurns
      (fun t => t.id = e.turnId ∧ t.status = .waitingApproval) fun t => { t with status := .running }) :=
    rfl
  have hcommit : transaction (resumeTurn e.turnId) db = (.ok (), _) :=
    commit_of_ok hok (constraints_resumeTurn hc hok)
  unfold Execution.advance
  rw [hphase]
  dsimp only
  rw [transact_commits hcommit]
  rintro ⟨t, ht, hid, hstatus⟩
  obtain ⟨t', -, rfl⟩ := mem_updateWhere.mp ht
  split_ifs at hid hstatus with hp
  exact hp ⟨hid, hstatus⟩

variable (env fresh m) in
theorem begun_advance (hphase : e.phase = .begun) :
    ((e.advance env fresh m db).1.phase = .requested ∧
      ∃ digest, (e.advance env fresh m db).1.asked = some ⟨fresh, digest⟩) ∨
    ((e.advance env fresh m db).2 = db ∧ (e.advance env fresh m db).1.asked = e.asked ∧
      ¬ waits (e.advance env fresh m db).1.phase) := by
  unfold Execution.advance
  rw [hphase]
  dsimp only
  split_ifs
  · unfold Execution.request Execution.transact
    split
    · exact Or.inl ⟨rfl, _, rfl⟩
    · next he =>
      rcases transaction_eq (requestApproval env fresh e.threadId e.turnId e.itemId e.name e.arguments)
        db with ⟨u, db', -, -, he'⟩ | ⟨err, he'⟩
      · rw [he'] at he
        cases he
      · rw [he'] at he
        exact Or.inr ⟨(Prod.mk.inj he).2.symm, rfl, Bool.false_ne_true⟩
  · exact Or.inr ⟨rfl, rfl, Bool.false_ne_true⟩

theorem transact_fst {β : Type} {P : Execution → Prop} {body : SessionDb → Except Err (β × SessionDb)}
    {k : β → Execution} (hk : ∀ b, P (k b)) (hfail : ∀ text, P (e.fail text)) :
    P (e.transact body k db).1 := by
  unfold Execution.transact
  split
  · exact hk _
  · exact hfail _

variable (env fresh m) in
theorem closing_advance {payload : Json} {status : ItemStatus} (hphase : e.phase = .closing payload status) :
    (e.advance env fresh m db).1 = e.enter .ended ∧
      (e.advance env fresh m db).2.approvals = db.approvals := by
  unfold Execution.advance
  rw [hphase]
  refine ⟨rfl, ?_⟩
  dsimp only
  rcases transaction_eq (completeItem env e.threadId e.turnId e.itemId payload status) db with
    ⟨u, db', hb, -, he⟩ | ⟨err, he⟩
  · rw [he]
    unfold completeItem at hb
    split at hb
    · rw [← (Prod.mk.inj (Except.ok.inj hb)).2]
      rfl
    · rw [← (Prod.mk.inj (Except.ok.inj hb)).2]
  · rw [he]

theorem settled_advance (hwaits : ¬ waits e.phase) (hbegun : e.phase ≠ .begun) :
    ¬ waits (e.advance env fresh m db).1.phase := by
  have hfail : ∀ text, ¬ waits (e.fail text).phase := fun _ => Bool.false_ne_true
  unfold Execution.advance
  cases hphase : e.phase with
  | reporting d =>
    refine transact_fst (P := fun e => ¬ waits e.phase) (fun _ => ?_) hfail
    unfold Execution.decided
    split_ifs
    · exact Bool.false_ne_true
    · exact hfail _
  | ready =>
    dsimp only
    split_ifs
    · exact hfail _
    · exact Bool.false_ne_true
  | acting =>
    dsimp only
    unfold Execution.act
    split
    · exact hfail _
    · exact Bool.false_ne_true
  | closing => exact Bool.false_ne_true
  | ended =>
    dsimp only
    rw [hphase]
    exact Bool.false_ne_true
  | begun => exact absurd hphase hbegun
  | _ =>
    rw [hphase] at hwaits
    exact absurd rfl hwaits

theorem advance_ne_begun : (e.advance env fresh m db).1.phase ≠ .begun := by
  have hfail : ∀ text, (e.fail text).phase ≠ .begun := fun _ => Phase.noConfusion
  have hdecided : ∀ d, (e.decided d).phase ≠ .begun := by
    intro d
    unfold Execution.decided
    split_ifs
    · exact Phase.noConfusion
    · exact Phase.noConfusion
  have htransact : ∀ {β : Type} {body : SessionDb → Except Err (β × SessionDb)} {k : β → Execution},
      (∀ b, (k b).phase ≠ .begun) → (e.transact body k db).1.phase ≠ .begun :=
    fun hk => transact_fst (P := fun e => e.phase ≠ .begun) hk hfail
  unfold Execution.advance
  split
  · split_ifs
    · exact htransact fun _ => Phase.noConfusion
    · exact Phase.noConfusion
  · refine htransact fun _ => ?_
    split_ifs
    · exact Phase.noConfusion
    · exact Phase.noConfusion
  · unfold Execution.handle
    split
    · exact hfail _
    · exact hfail _
    · exact htransact fun _ => Phase.noConfusion
  · split_ifs
    · exact hfail _
    · exact Phase.noConfusion
  · unfold Execution.check
    split
    · exact hfail _
    · split_ifs
      · exact Phase.noConfusion
      · exact hfail _
  · unfold Execution.read
    split
    · exact hfail _
    · split_ifs
      · exact Phase.noConfusion
      · exact Phase.noConfusion
      · exact Phase.noConfusion
  · unfold Execution.expire
    split
    · exact hfail _
    · exact htransact fun _ => Phase.noConfusion
  · split_ifs
    · exact hdecided _
    · exact Phase.noConfusion
  · exact htransact fun _ => Phase.noConfusion
  · exact htransact fun _ => hdecided _
  · split_ifs
    · exact hfail _
    · exact Phase.noConfusion
  · unfold Execution.act
    split
    · exact hfail _
    · exact Phase.noConfusion
  · exact Phase.noConfusion
  · next hphase =>
    rw [hphase]
    exact Phase.noConfusion

/-! ### What a change does to the rows that wait -/

def Begins (w : World) (op : Op) (e : Execution) : Prop :=
  ∃ env j m, op = .step env j m ∧ w.executions[j]? = some e ∧ e.phase = .begun

def Decides (db db' : SessionDb) : Prop :=
  ∀ r' ∈ db'.approvals, ∃ r ∈ db.approvals, r.id = r'.id ∧ r.turnId = r'.turnId ∧
    (r'.decision = .pending → r.decision = .pending)

theorem decides_of_eq (h : db'.approvals = db.approvals) : Decides db db' := by
  intro r hr
  rw [h] at hr
  exact ⟨r, hr, rfl, rfl, id⟩

theorem decides_updApprovals {p : Approval → Prop} [DecidablePred p] {decision : Decision}
    (hd : decision ≠ .pending)
    (h : db'.approvals = updateWhere p (fun a => { a with decision := decision }) db.approvals) :
    Decides db db' := by
  intro r' hr'
  rw [h] at hr'
  obtain ⟨r, hr, rfl⟩ := mem_updateWhere.mp hr'
  refine ⟨r, hr, ?_⟩
  split_ifs
  · exact ⟨rfl, rfl, fun hp => absurd hp hd⟩
  · exact ⟨rfl, rfl, id⟩

theorem approvals_of_change (h : Change uuids w op db') (hc : w.db.Constraints) :
    Decides w.db db' ∨ ∃ e, Begins w op e ∧ ∃ r', r'.id = uuids.draw w.drawn ∧
      r'.turnId = e.turnId ∧ db'.approvals = w.db.approvals ++ [r'] := by
  cases h with
  | quiet h => exact Or.inl (decides_of_eq h.journal.approvals)
  | recovers _ _ _ _ _ h =>
    subst h
    exact Or.inl (decides_updApprovals Decision.noConfusion endTurn_approvals)
  | asks hop he hphase _ h =>
    subst h
    exact Or.inr ⟨_, ⟨_, _, _, hop, he, hphase⟩, _, rfl, rfl, rfl⟩
  | responds _ hd _ _ _ _ _ h =>
    subst h
    exact Or.inl (decides_updApprovals (clientDecision_ne_pending hd) rfl)
  | expires _ _ h =>
    subst h
    exact Or.inl (decides_updApprovals Decision.noConfusion rfl)
  | @finishes env k p text answer status _ _ _ _ h =>
    subst h
    have hsame := answered_approvals env (uuids.draw w.drawn) p.threadId p.turnId p.messageId answer w.db
    let db₀ := (answered env (uuids.draw w.drawn) p.threadId p.turnId p.messageId answer w.db).2
    have hexpired : (endTurn env p.threadId p.turnId status db₀).approvals = _ := endTurn_approvals
    rw [hsame] at hexpired
    exact Or.inl (decides_updApprovals Decision.noConfusion hexpired)
  | interrupts _ _ h =>
    rcases endActive_cases hc h with ⟨-, rfl⟩ | ⟨t, -, rfl⟩
    · exact Or.inl (decides_of_eq rfl)
    · exact Or.inl (decides_updApprovals Decision.noConfusion endTurn_approvals)
  | progresses _ _ _ _ h | resumes _ _ _ h =>
    rw [← (Prod.mk.inj (Except.ok.inj h)).2]
    exact Or.inl (decides_of_eq rfl)
  | opens _ _ _ h | starts _ _ h | closes _ _ h | streams _ _ h =>
    subst h
    exact Or.inl (decides_of_eq rfl)

def Releases (db db' : SessionDb) : Prop :=
  ∀ t' ∈ db'.turns, t'.status = .waitingApproval →
    ∃ t ∈ db.turns, t.id = t'.id ∧ t.status = .waitingApproval

theorem releases_of_eq (h : db'.turns = db.turns) : Releases db db' := by
  intro t ht hstatus
  rw [h] at ht
  exact ⟨t, ht, rfl, hstatus⟩

theorem releases_updTurns {p : Turn → Prop} [DecidablePred p] {f : Turn → Turn}
    (hf : ∀ t, (f t).status ≠ .waitingApproval) (h : db'.turns = updateWhere p f db.turns) :
    Releases db db' := by
  intro t' ht' hstatus
  rw [h] at ht'
  obtain ⟨t, ht, rfl⟩ := mem_updateWhere.mp ht'
  split_ifs at hstatus ⊢
  · exact absurd hstatus (hf t)
  · exact ⟨t, ht, rfl, hstatus⟩

theorem releases_endTurn {threadId : String} {turnId : Uuid} {status : TurnStatus}
    (hs : ¬ status.Active) : Releases db (endTurn env threadId turnId status db) := by
  refine releases_updTurns (fun t => ?_) endTurn_turns
  exact fun h => hs (Or.inr h)

theorem releases_opened {turnId : Uuid} {threadId : String} {mode : ApprovalMode}
    (h : Releases db db') : Releases db (opened env turnId threadId mode db') := by
  intro t ht hstatus
  rcases List.mem_append.mp ht with ht | ht
  · exact h t ht hstatus
  · rw [List.mem_singleton.mp ht] at hstatus
    cases hstatus

theorem turns_of_asks (h : Change uuids w op db') (hc : w.db.Constraints) :
    Releases w.db db' ∨ ∃ e, Begins w op e ∧ db'.approvals ≠ w.db.approvals ∧
      ∀ t' ∈ db'.turns, t'.status = .waitingApproval →
        (∃ t ∈ w.db.turns, t.id = t'.id ∧ t.status = .waitingApproval) ∨ t'.id = e.turnId := by
  cases h with
  | quiet h => exact Or.inl (releases_of_eq h.journal.turns)
  | opens _ _ _ h =>
    subst h
    exact Or.inl (releases_opened (releases_of_eq rfl))
  | @recovers env threadId request mode mode' handler t _ _ _ _ _ h =>
    subst h
    have hr : Releases w.db (recovered env threadId t.id w.db) := releases_endTurn (by decide)
    exact Or.inl (releases_opened hr)
  | @asks env j m e digest action hop he hphase _ h =>
    subst h
    have happrovals : ∀ r : Approval, w.db.approvals ++ [r] ≠ w.db.approvals := by simp
    refine Or.inr ⟨e, ⟨_, _, _, hop, he, hphase⟩, happrovals _, fun t' ht' hstatus => ?_⟩
    obtain ⟨t, ht, rfl⟩ := mem_updateWhere.mp ht'
    by_cases hid : t.id = e.turnId
    · rw [if_pos hid]
      exact Or.inr hid
    · rw [if_neg hid] at hstatus ⊢
      exact Or.inl ⟨t, ht, rfl, hstatus⟩
  | @resumes env j m e d _ _ _ h =>
    rw [← (Prod.mk.inj (Except.ok.inj h)).2]
    have hf : ∀ t : Turn, ({ t with status := TurnStatus.running } : Turn).status ≠ .waitingApproval :=
      fun _ => TurnStatus.noConfusion
    exact Or.inl (releases_updTurns hf rfl)
  | progresses _ _ _ _ h =>
    rw [← (Prod.mk.inj (Except.ok.inj h)).2]
    exact Or.inl (releases_of_eq rfl)
  | @finishes env k p text answer status _ _ _ hs h =>
    subst h
    let db₀ := (answered env (uuids.draw w.drawn) p.threadId p.turnId p.messageId answer w.db).2
    have hr : Releases db₀ (endTurn env p.threadId p.turnId status db₀) := releases_endTurn hs
    refine Or.inl fun t' ht' hstatus => ?_
    have hbefore := hr t' ht' hstatus
    rw [answered_turns] at hbefore
    exact hbefore
  | interrupts _ _ h =>
    rcases endActive_cases hc h with ⟨-, rfl⟩ | ⟨t, -, rfl⟩
    · exact Or.inl (releases_of_eq rfl)
    · exact Or.inl (releases_endTurn (by decide))
  | starts _ _ h | closes _ _ h | streams _ _ h | responds _ _ _ _ _ _ _ h | expires _ _ h =>
    subst h
    exact Or.inl (releases_of_eq rfl)

/-! ### The invariant -/

structure Attending (w : World) : Prop where
  begun : ∀ e ∈ w.executions, e.phase = .begun → e.asked = none
  asked : ∀ e ∈ w.executions, waits e.phase → e.asked.isSome
  /-- an execution whose approval is pending looks for the decision -/
  seeking : ∀ e ∈ w.executions, ∀ a ∈ e.asked, ∀ r ∈ w.db.approvals, r.id = a.approvalId →
    r.decision = .pending → seeks e.phase
  /-- an approval is that of an execution -/
  owned : ∀ r ∈ w.db.approvals, ∃ e ∈ w.executions, ∃ a ∈ e.asked,
    r.id = a.approvalId ∧ r.turnId = e.turnId
  /-- a turn that waits has an execution that waits -/
  waiting : ∀ t ∈ w.db.turns, t.status = .waitingApproval →
    ∃ e ∈ w.executions, e.turnId = t.id ∧ waits e.phase

theorem execution_origin {e' : Execution} (h : e' ∈ (next uuids w op).executions) :
    e' ∈ w.executions ∨ (e'.asked = none ∧ e'.phase = .begun) ∨
      ∃ env j m e, op = .step env j m ∧ w.executions[j]? = some e ∧
        e' = (e.advance env (uuids.draw w.drawn) m w.db).1 := by
  cases executes_next uuids w op with
  | same hs => exact Or.inl (hs ▸ h)
  | starts hasked hphase hs =>
    rw [hs] at h
    rcases List.mem_append.mp h with h | h
    · exact Or.inl h
    · rw [List.mem_singleton.mp h]
      exact Or.inr (Or.inl ⟨hasked, hphase⟩)
  | @steps env j m e hop he hs =>
    rw [hs] at h
    rcases List.mem_or_eq_of_mem_set h with h | h
    · exact Or.inl h
    · exact Or.inr (Or.inr ⟨env, j, m, e, hop, he, h⟩)

theorem next_step {j : ℕ} (he : w.executions[j]? = some e) : next uuids w (.step env j m) =
    { w with
      db := (e.advance env (uuids.draw w.drawn) m w.db).2
      drawn := w.drawn + 1
      executions := w.executions.set j (e.advance env (uuids.draw w.drawn) m w.db).1 } := by
  simp only [next, he]

theorem mem_next_step {j : ℕ} (he : w.executions[j]? = some e) :
    (e.advance env (uuids.draw w.drawn) m w.db).1 ∈
      (next uuids w (.step env j m)).executions := by
  rw [next_step he]
  have hlt : j < w.executions.length := (List.getElem?_eq_some_iff.mp he).1
  exact List.mem_of_getElem? (List.getElem?_set_self hlt)

theorem asked_advance (hbegun : e.phase ≠ .begun) :
    (e.advance env fresh m db).1.asked = e.asked := by
  generalize hr : e.advance env fresh m db = r
  have hgoes := goes_advance env fresh m e db
  rw [hr] at hgoes
  cases hgoes with
  | stays => rfl
  | asks h => exact absurd h.begun hbegun

theorem turnId_advance : (e.advance env fresh m db).1.turnId = e.turnId := by
  have hsame : SameCall e (e.advance env fresh m db).1 := (goes_advance _ _ _ _ _).sameCall
  rw [hsame]

theorem heeds_of_attended {j : ℕ} (ha : Attended w (.step env j m)) (he : w.executions[j]? = some e) :
    Heeds env.host m e w.db := by
  intro hactive
  have hcond := ha e he hactive
  unfold Smooth at hcond
  refine ⟨fun hphase => ?_, fun hphase => ?_⟩
  · rw [hphase] at hcond
    exact hcond
  · rw [hphase] at hcond
    exact hcond

theorem standing_of_mem (hr : Regular w) {j : ℕ} (he : w.executions[j]? = some e) : Standing e w.db := by
  have hl := hr.settled.linked
  have hlinked := hl.executions e (List.mem_of_getElem? he)
  obtain ⟨t, ht, -, hthread⟩ := hlinked.known
  exact ⟨hl.constraints, hr.settled.sound, hr.counted, hlinked, hthread ▸ hr.housed t ht⟩

theorem begun_next (h : Attending w) :
    ∀ e ∈ (next uuids w op).executions, e.phase = .begun → e.asked = none := by
  intro e' he' hphase
  rcases execution_origin he' with he' | ⟨hasked, -⟩ | ⟨env, j, m, e, -, -, rfl⟩
  · exact h.begun e' he' hphase
  · exact hasked
  · exact absurd hphase advance_ne_begun

theorem asked_next (h : Attending w) :
    ∀ e ∈ (next uuids w op).executions, waits e.phase → e.asked.isSome := by
  intro e' he' hwaits
  rcases execution_origin he' with he' | ⟨-, hphase⟩ | ⟨env, j, m, e, -, he, rfl⟩
  · exact h.asked e' he' hwaits
  · rw [hphase] at hwaits
    exact absurd hwaits Bool.false_ne_true
  · by_cases hbegun : e.phase = .begun
    · rcases begun_advance env (uuids.draw w.drawn) m hbegun with
        ⟨-, digest, hasked⟩ | ⟨-, -, hno⟩
      · rw [hasked]
        rfl
      · exact absurd hwaits hno
    · rw [asked_advance hbegun]
      refine h.asked e (List.mem_of_getElem? he) ?_
      by_contra hno
      exact settled_advance hno hbegun hwaits

theorem row_before (hr : Regular w) {a : Asked} (ha : ∃ r ∈ w.db.approvals, r.id = a.approvalId) {r' : Approval}
    (hmem : r' ∈ (next uuids w op).db.approvals) (hid : r'.id = a.approvalId)
    (hp : r'.decision = .pending) :
    ∃ r ∈ w.db.approvals, r.id = a.approvalId ∧ r.turnId = r'.turnId ∧ r.decision = .pending := by
  have hdoes : Does uuids w op (next uuids w op).db := does_next hr.settled.linked op
  rcases approvals_of_change hdoes.change hr.settled.linked.constraints with
    hdec | ⟨e, -, new, -, -, happ⟩
  · obtain ⟨r, hrow, hrid, hturn, hpend⟩ := hdec r' hmem
    exact ⟨r, hrow, hrid.trans hid, hturn, hpend hp⟩
  · have hkeyed := hdoes.constraints.approvals
    rw [happ] at hmem hkeyed
    rcases List.mem_append.mp hmem with hmem | hmem
    · exact ⟨r', hmem, hid, rfl, hp⟩
    · obtain ⟨r₀, hr₀, hid₀⟩ := ha
      have hne := (keyed_append.mp hkeyed).2.2 r₀ hr₀ r' hmem
      exact absurd (hid₀.trans hid.symm) hne

theorem seeking_next (hr : Regular w) (h : Attending w) (ha : Attended w op) :
    ∀ e ∈ (next uuids w op).executions, ∀ a ∈ e.asked, ∀ r ∈ (next uuids w op).db.approvals, r.id = a.approvalId → r.decision = .pending →
      seeks e.phase := by
  have hl := hr.settled.linked
  have hl' : Linked (next uuids w op) := linked_next hl op
  intro e' he' a haskd r' hrow' hid hp
  rcases execution_origin he' with hold | ⟨hasked, -⟩ | ⟨env, j, m, e, rfl, he, rfl⟩
  · obtain ⟨r₀, hr₀, hid₀, -⟩ := (hl.executions e' hold).asked a haskd
    obtain ⟨r, hrow, hrid, -, hpend⟩ := row_before hr ⟨r₀, hr₀, hid₀⟩ hrow' hid hp
    exact h.seeking e' hold a haskd r hrow hrid hpend
  · rw [hasked] at haskd
    cases haskd
  · have hmem := List.mem_of_getElem? he
    by_cases hbegun : e.phase = .begun
    · rcases begun_advance env (uuids.draw w.drawn) m hbegun with
        ⟨hphase, -⟩ | ⟨-, hsame, -⟩
      · rw [hphase]
        rfl
      · rw [hsame, h.begun e hmem hbegun] at haskd
        cases haskd
    · have haskd' := haskd
      rw [asked_advance hbegun] at haskd'
      obtain ⟨r₀, hr₀, hrow₀⟩ := (hl.executions e hmem).asked a haskd'
      obtain ⟨r, hrow, hrid, hturn, hpend⟩ := row_before hr ⟨r₀, hr₀, hrow₀.1⟩ hrow' hid hp
      obtain rfl := hl.constraints.approvals.eq_of_key hrow hr₀ (hrid.trans hrow₀.1.symm)
      have hactive : Active e.turnId w.db := hrow₀.2.1 ▸ hr.settled.sound.approvals r hrow hpend
      have hseeks := h.seeking e hmem a haskd' r hrow hrid hpend
      have hasked : e.asked.isSome := Option.isSome_iff_exists.mpr ⟨a, haskd'⟩
      cases sought_advance env (uuids.draw w.drawn) m (standing_of_mem hr he) hasked hseeks (heeds_of_attended ha he) with
      | seeks hphase => exact hphase
      | @finds d hphase =>
        obtain ⟨hd, a', ha', r'', hrow'', hr'', hdec⟩ := (hl'.executions _ he').found d (by
          rw [hphase]
          rfl)
        obtain rfl := Option.some.inj (haskd.symm.trans ha')
        have hsame := hl'.constraints.approvals.eq_of_key hrow'' hrow' (hr''.1.trans hid.symm)
        rw [hsame, hp] at hdec
        exact absurd hdec.symm hd
      | leaves hno => exact absurd hactive hno

theorem owned_next (hr : Regular w) (h : Attending w) : ∀ r ∈ (next uuids w op).db.approvals,
    ∃ e ∈ (next uuids w op).executions, ∃ a ∈ e.asked, r.id = a.approvalId ∧ r.turnId = e.turnId := by
  have hdoes : Does uuids w op (next uuids w op).db := does_next hr.settled.linked op
  have hold : ∀ r ∈ w.db.approvals, ∃ e ∈ (next uuids w op).executions,
      ∃ a ∈ e.asked, r.id = a.approvalId ∧ r.turnId = e.turnId := by
    intro r hrow
    obtain ⟨e, he, a, ha, hid, hturn⟩ := h.owned r hrow
    obtain ⟨k, hk⟩ := List.mem_iff_getElem?.mp he
    rcases execution_next uuids op hk with hk' | ⟨env, m, -, hk'⟩
    · exact ⟨e, List.mem_of_getElem? hk', a, ha, hid, hturn⟩
    · have hbegun : e.phase ≠ .begun := by
        intro hphase
        rw [h.begun e he hphase] at ha
        cases ha
      refine ⟨_, List.mem_of_getElem? hk', a, ?_, hid, ?_⟩
      · rw [asked_advance hbegun]
        exact ha
      · exact hturn.trans turnId_advance.symm
  intro r' hrow'
  rcases approvals_of_change hdoes.change hr.settled.linked.constraints with
    hdec | ⟨e, ⟨env, j, m, rfl, he, hphase⟩, new, hnew, hturn, happ⟩
  · obtain ⟨r, hrow, hid, hturn, -⟩ := hdec r' hrow'
    rw [← hid, ← hturn]
    exact hold r hrow
  · rw [happ] at hrow'
    rcases List.mem_append.mp hrow' with hrow' | hrow'
    · exact hold r' hrow'
    · obtain rfl := List.mem_singleton.mp hrow'
      rcases begun_advance env (uuids.draw w.drawn) m hphase with
        ⟨-, digest, hasked⟩ | ⟨hsame, -⟩
      · exact ⟨_, mem_next_step he, _, hasked, hnew, hturn.trans turnId_advance.symm⟩
      · rw [next_step he] at happ
        change (e.advance env (uuids.draw w.drawn) m w.db).2.approvals = _ at happ
        rw [hsame] at happ
        simp at happ

theorem waiting_next (hr : Regular w) (h : Attending w) (ha : Attended w op) :
    ∀ t ∈ (next uuids w op).db.turns,
    t.status = .waitingApproval →
      ∃ e ∈ (next uuids w op).executions, e.turnId = t.id ∧ waits e.phase := by
  have hl := hr.settled.linked
  have hdoes : Does uuids w op (next uuids w op).db := does_next hl op
  intro t' ht' hstatus
  -- the turn waited before, or its execution asks by this step
  obtain ⟨t, ht, hid, hwas⟩ | ⟨e, ⟨env, j, m, rfl, he, hphase⟩, hnew, hid⟩ :
      (∃ t ∈ w.db.turns, t.id = t'.id ∧ t.status = .waitingApproval) ∨
        ∃ e, Begins w op e ∧ (next uuids w op).db.approvals ≠ w.db.approvals ∧ t'.id = e.turnId := by
    rcases turns_of_asks hdoes.change hl.constraints with hrel | ⟨e, hbegins, hnew, hturns⟩
    · exact Or.inl (hrel t' ht' hstatus)
    · rcases hturns t' ht' hstatus with h | h
      · exact Or.inl h
      · exact Or.inr ⟨e, hbegins, hnew, h⟩
  · obtain ⟨e, he, hturn, hwaits⟩ := h.waiting t ht hwas
    obtain ⟨k, hk⟩ := List.mem_iff_getElem?.mp he
    rcases execution_next uuids op hk with hk' | ⟨env, m, rfl, hk'⟩
    · exact ⟨e, List.mem_of_getElem? hk', hturn.trans hid, hwaits⟩
    · have hactive : Active e.turnId w.db :=
        (active_iff hl.constraints.turns).mpr ⟨t, ht, hturn.symm, Or.inr hwas⟩
      have hmine : (e.advance env (uuids.draw w.drawn) m w.db).1.turnId = t'.id :=
        turnId_advance.trans (hturn.trans hid)
      have hstep : waits (e.advance env (uuids.draw w.drawn) m w.db).1.phase →
          ∃ e ∈ (next uuids w (.step env k m)).executions, e.turnId = t'.id ∧ waits e.phase :=
        fun hw => ⟨_, List.mem_of_getElem? hk', hmine, hw⟩
      have hdb : (next uuids w (.step env k m)).db = (e.advance env (uuids.draw w.drawn) m w.db).2 := by
        rw [next_step hk]
      by_cases hseeks : seeks e.phase
      · cases sought_advance env (uuids.draw w.drawn) m (standing_of_mem hr hk) (h.asked e he hwaits) hseeks (heeds_of_attended ha hk) with
        | seeks hphase => exact hstep (waits_of_seeks hphase)
        | finds hphase =>
          refine hstep ?_
          rw [hphase]
          rfl
        | leaves hno => exact absurd hactive hno
      · cases hphase : e.phase with
        | counting d =>
          rcases counted_advance env (uuids.draw w.drawn) m hphase with hres | ⟨r, hrow, hrturn, hp⟩
          · refine hstep ?_
            rw [hres]
            rfl
          · -- another approval of the turn is pending, and its execution waits
            rw [← hdb] at hrow
            obtain ⟨e', he', a, hasked, hrid, hturn'⟩ := owned_next hr h r hrow
            refine ⟨e', he', ?_, waits_of_seeks (seeking_next hr h ha e' he' a hasked r hrow hrid hp)⟩
            exact hturn'.symm.trans (hrturn.trans (hturn.trans hid))
        | resuming d =>
          have hno := resumed_advance env (uuids.draw w.drawn) m hl.constraints hphase
          rw [← hdb] at hno
          exact absurd ⟨t', ht', hid.symm.trans hturn.symm, hstatus⟩ hno
        | _ =>
          rw [hphase] at hwaits hseeks
          exact absurd hwaits hseeks
  · rcases begun_advance env (uuids.draw w.drawn) m hphase with
      ⟨hreq, -⟩ | ⟨hsame, -⟩
    · refine ⟨_, mem_next_step he, turnId_advance.trans hid.symm, ?_⟩
      rw [hreq]
      rfl
    · rw [next_step he] at hnew
      exact absurd (congrArg SessionDb.approvals hsame) hnew

/-- **An attended step keeps what waits waited for.** -/
theorem attending_next (hr : Regular w) (h : Attending w) (ha : Attended w op) :
    Attending (next uuids w op) :=
  ⟨begun_next h, asked_next h, seeking_next hr h ha, owned_next hr h, waiting_next hr h ha⟩

theorem attending_empty : Attending {} := by
  refine ⟨?_, ?_, ?_, ?_, ?_⟩ <;> exact fun _ h => absurd h List.not_mem_nil

/-! ### Nothing is left behind -/

/-- **What an execution that ends leaves**: its approval is decided, and if its turn is still active and
nothing of it is pending, the turn runs. -/
structure Cleared (e : Execution) (db : SessionDb) : Prop where
  decided : ∀ a ∈ e.asked, ∃ r ∈ db.approval a.approvalId, r.decision ≠ .pending
  running : ∀ t ∈ db.turn e.turnId, t.status.Active → ¬ Pending e.turnId db → t.status = .running

/-- An execution that the step ends leaves its approval and its turn so. -/
def Clears (uuids : Uuids) (w : World) : Op → Prop
  | .step env j m => ∀ e ∈ w.executions[j]?, ∀ payload status, e.phase = .closing payload status →
      Cleared e (next uuids w (.step env j m)).db
  | _ => True

theorem clears_of_attending (hr : Regular w) (h : Attending w) (ha : Attended w op) :
    Clears uuids w op := by
  cases op with
  | step env j m =>
    intro e he payload status hphase
    have hl := hr.settled.linked
    have hdoes : Does uuids w (.step env j m) (next uuids w (.step env j m)).db := does_next hl _
    have h' : Attending (next uuids w (.step env j m)) := attending_next hr h ha
    obtain ⟨hover, hrows⟩ := closing_advance env (uuids.draw w.drawn) m hphase
    have hmine : e.enter .ended ∈ (next uuids w (.step env j m)).executions :=
      hover ▸ mem_next_step he
    have hsame : (next uuids w (.step env j m)).db.approvals = w.db.approvals := by
      rw [next_step he]
      exact hrows
    refine ⟨fun a hasked => ?_, fun t ht hactive hno => ?_⟩
    · obtain ⟨r, hrow, hid, -⟩ := (hl.executions e (List.mem_of_getElem? he)).asked a hasked
      rw [← hsame] at hrow
      refine ⟨r, (lookup_eq_some_iff hdoes.constraints.approvals).mpr ⟨hrow, hid⟩, fun hp => ?_⟩
      exact Bool.false_ne_true (h'.seeking _ hmine a hasked r hrow hid hp)
    · obtain ⟨hmem, htid⟩ := (lookup_eq_some_iff hdoes.constraints.turns).mp ht
      rcases hactive with hrunning | hwaiting
      · exact hrunning
      · obtain ⟨e', he', hturn, hwaits⟩ := h'.waiting t hmem hwaiting
        obtain ⟨k, hk⟩ := List.mem_iff_getElem?.mp he'
        have hkj : k ≠ j := by
          rintro rfl
          rw [next_step he, List.getElem?_set_self (List.getElem?_eq_some_iff.mp he).1, hover] at hk
          rw [← Option.some.inj hk] at hwaits
          exact Bool.false_ne_true hwaits
        have hk' : w.executions[k]? = some e' := by
          rw [next_step he, List.getElem?_set_ne hkj.symm] at hk
          exact hk
        have hwas : Active e.turnId w.db := by
          obtain ⟨t₀, ht₀, hid₀, -⟩ := (hl.executions e (List.mem_of_getElem? he)).known
          obtain ⟨t', ht', hid', -, hact⟩ := (hdoes.change.grows hl.constraints).turns t₀ ht₀
          obtain rfl := hdoes.constraints.turns.eq_of_key ht' hmem (hid'.trans (hid₀.trans htid.symm))
          exact (active_iff hl.constraints.turns).mpr ⟨t₀, ht₀, hid₀, hact (Or.inr hwaiting)⟩
        have hcond := ha e he hwas
        unfold Smooth at hcond
        rw [hphase] at hcond
        have hother : e' ∈ w.executions.eraseIdx j :=
          List.mem_eraseIdx_iff_getElem?.mpr ⟨k, hkj, hk'⟩
        obtain ⟨r, hrow, hpend⟩ := hcond e' hother (hturn.trans htid) hwaits
        rw [← hsame] at hrow
        exact absurd ⟨r, hrow, hpend⟩ hno
  | _ => trivial

/-- **In a run of attended steps no execution leaves an approval behind.** -/
theorem no_orphans (uuids : Uuids) (ops : List Op) (h : Along (next uuids) Attended {} ops) :
    Along (next uuids) (Clears uuids) {} ops := by
  have hstep : ∀ w op, Regular w ∧ Attending w → Attended w op →
      Regular (next uuids w op) ∧ Attending (next uuids w op) :=
    fun w op hI ha => ⟨regular_next hI.1 op, attending_next hI.1 hI.2 ha⟩
  exact along_of_inv hstep (fun w op hI ha => clears_of_attending hI.1 hI.2 ha)
    ⟨regular_empty, attending_empty⟩ h

/-- An execution in the mode `ask`, to the call of its handler. -/
def asking : List Op :=
  [.createOrGet (clock 1) (some "chat") "Create a note",
   .begin (clock 2) "chat" "Create a note" "ask" true,
   .rest (clock 3) 0, .rest (clock 4) 0,
   .execute (clock 5) 0 "file_write" (.obj []), .step (clock 6) 0 {}, .step (clock 7) 0 {}]

/-- The handler allows, and the action runs. -/
theorem no_orphans_allowed : Along (next ids) (Clears ids) {} (asking ++
    [.step (clock 8) 0 { handled := .returns "allow" }, .step (clock 9) 0 {}, .step (clock 10) 0 {},
     .step (clock 11) 0 {}, .step (clock 12) 0 {}, .step (clock 13) 0 {}, .step (clock 14) 0 {},
     .step (clock 15) 0 {}, .step (clock 16) 0 { result := .returns (.obj []) },
     .step (clock 17) 0 {}]) :=
  no_orphans ids _ (by decide)

/-- The handler raises: the approval stays pending, and the turn waits. -/
theorem not_cleared_after_raise : ¬ Along (next ids) (Clears ids) {} (asking ++
    [.step (clock 8) 0 { handled := .raises "approval surface went away" }, .step (clock 9) 0 {}]) := by
  intro h
  have hcleared := (along_append.mp h).2.2.1 _ rfl _ _ rfl
  obtain ⟨r, hr, hp⟩ := hcleared.decided _ rfl
  revert r
  decide

end Smara.Session.Orphans
