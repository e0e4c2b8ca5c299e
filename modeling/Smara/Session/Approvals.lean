import Smara.Session.Links

/-! # Approval of exact actions

Along every run: the action of an execution is run at most once; in the mode `ask` the action of a tool
that is not read-only is run only after the approval that this execution has asked for, with the hash
of this action, went from pending to allow by a response made while the turn was active and not
cancelled; and a decision stays as it was made (`exact_approval`).

* `execution_next`: only a step of an execution moves it.
* `allow_of_change`: only a response allows. -/

namespace Smara.Session.Approvals

open Lib.Machine Lib.Table Lib.Transaction
open TaskStore.Schema (Uuid Digest)
open Goals.Schema (Json Uuids)
open Session.Schema Session.Envelope Session.Protocol Session.Steps
open Session.Effects Session.Links

variable {uuids : Uuids} {w : World} {op : Op} {db db' : SessionDb} {j : ℕ} {e : Execution}

/-! ### The steps of an execution -/

theorem executions_write {β : Type} (w : World) (body : SessionDb → Except Err (β × SessionDb)) :
    (w.write body).executions = w.executions := rfl

theorem executions_andThen {β : Type} (w : World)
    (body : SessionDb → Except Err (β × SessionDb)) {k : β → World → World}
    (hk : ∀ b w, (k b w).executions = w.executions) : (w.andThen body k).executions = w.executions := by
  rcases andThen_cases w body k with ⟨b, db', -, -, he⟩ | he
  · rw [he, hk]
  · rw [he]

theorem executions_textDelta (w : World) (env : Env) (fresh : Uuid) (k : ℕ) (p : ProtocolTurn)
    (text : String) : (w.textDelta env fresh k p text).executions = w.executions := by
  unfold World.textDelta
  split
  · rfl
  · exact executions_andThen w _ fun _ _ => rfl

theorem executions_onTurn {k : ℕ} {call : ProtocolTurn → World}
    (h : ∀ p, (call p).executions = w.executions) : (w.onTurn k call).executions = w.executions := by
  unfold World.onTurn
  split
  · rfl
  · exact h _

/-- **What a step does to the executions.** -/
inductive Executes (uuids : Uuids) (w : World) (op : Op) (executions : List Execution) : Prop
  | same (h : executions = w.executions)
  | starts {e' : Execution} (hasked : e'.asked = none) (hphase : e'.phase = .begun)
      (h : executions = w.executions ++ [e'])
  | steps {env i m} {e' : Execution} (hop : op = .step env i m) (he : w.executions[i]? = some e')
      (h : executions = w.executions.set i (e'.advance env (uuids.draw w.drawn) m w.db).1)

/-- **Every step does one of these.** -/
theorem executes_next (uuids : Uuids) (w : World) (op : Op) :
    Executes uuids w op (next uuids w op).executions := by
  cases op with
  | step env i m =>
    simp only [next]
    split
    · exact .same rfl
    · next e he => exact .steps rfl he rfl
  | execute env k name arguments =>
    simp only [next]
    unfold World.onTurn
    split
    · exact .same rfl
    · next p hp =>
      dsimp only
      rcases andThen_cases w (item env (uuids.draw w.drawn) p.threadId p.turnId "tool_execution"
        (actionOf name arguments)) _ with ⟨b, db', -, -, hw⟩ | hw
      · rw [hw]
        exact .starts rfl rfl rfl
      · rw [hw]
        exact .same rfl
  | rest env i =>
    simp only [next]
    split
    · exact .same rfl
    · exact .same rfl
  | createOrGet | appendEvent | checkpoint | requestCancel | respond =>
    rw [next]
    exact .same (executions_write w _)
  | startTurn | begin | interrupt =>
    rw [next]
    exact .same (executions_andThen w _ fun _ _ => rfl)
  | bindExecution => exact .same (executions_onTurn fun _ => rfl)
  | item => exact .same (executions_onTurn fun _ => rfl)
  | completeItem => exact .same (executions_onTurn fun _ => rfl)
  | textDelta => exact .same (executions_onTurn fun p => executions_textDelta w _ _ _ p _)
  | progress =>
    refine .same (executions_onTurn fun p => ?_)
    unfold World.progress
    split
    · exact executions_textDelta w _ _ _ p _
    · split
      · rfl
      · rfl
  | finish => exact .same (executions_onTurn fun p => executions_andThen w _ fun _ _ => rfl)

theorem execution_next (uuids : Uuids) (op : Op) (he : w.executions[j]? = some e) :
    (next uuids w op).executions[j]? = some e ∨ ∃ env m, op = .step env j m ∧
      (next uuids w op).executions[j]? =
        some (e.advance env (uuids.draw w.drawn) m w.db).1 := by
  have hlt : j < w.executions.length := (List.getElem?_eq_some_iff.mp he).1
  cases executes_next uuids w op with
  | same h => exact Or.inl (h ▸ he)
  | starts _ _ h =>
    rw [h, List.getElem?_append_left hlt]
    exact Or.inl he
  | @steps env i m e' hop he' h =>
    by_cases hij : i = j
    · subst hij
      obtain rfl := Option.some.inj (he'.symm.trans he)
      rw [h, List.getElem?_set_self hlt]
      exact Or.inr ⟨env, m, hop, rfl⟩
    · rw [h, List.getElem?_set_ne hij]
      exact Or.inl he

theorem execution_before (h : (next uuids w op).executions[j]? = some e) :
    (∃ e', w.executions[j]? = some e') ∨ e.asked = none := by
  cases executes_next uuids w op with
  | same hs => exact Or.inl ⟨e, hs ▸ h⟩
  | @starts e' hasked _ hs =>
    rw [hs, List.getElem?_append] at h
    split at h
    · exact Or.inl ⟨e, h⟩
    · rw [List.mem_singleton.mp (List.mem_of_getElem? h)]
      exact Or.inr hasked
  | @steps env i m e' hop he' hs =>
    have hlt := (List.getElem?_eq_some_iff.mp h).1
    rw [hs, List.length_set] at hlt
    exact Or.inl ⟨_, List.getElem?_eq_getElem hlt⟩

def SameCall (e e' : Execution) : Prop := e' = { e with asked := e'.asked, phase := e'.phase }

theorem SameCall.trans {e' e'' : Execution} (h : SameCall e e') (h' : SameCall e' e'') :
    SameCall e e'' := by
  unfold SameCall at h h' ⊢
  rw [h', h]

/-- A step of an execution that asks for its approval. -/
structure Asks (env : Env) (fresh : Uuid) (e : Execution) (db db' : SessionDb) : Prop where
  begun : e.phase = .begun
  constraints : db'.Constraints
  row : db'.approvals = db.approvals ++
    [⟨fresh, e.turnId, e.itemId, digestOf env e.name e.arguments,
      safe env.host (actionOf e.name e.arguments), .pending, env.now⟩]

/-- **What a step of an execution does to the call.** -/
inductive Goes (env : Env) (fresh : Uuid) (e : Execution) (db : SessionDb) :
    Execution × SessionDb → Prop
  | stays (phase : Phase) (db' : SessionDb) : Goes env fresh e db (e.enter phase, db')
  | asks {db' : SessionDb} (h : Asks env fresh e db db') : Goes env fresh e db
      ({ e with asked := some ⟨fresh, digestOf env e.name e.arguments⟩, phase := .requested }, db')

theorem goes_transact {env : Env} {fresh : Uuid} {β : Type}
    {body : SessionDb → Except Err (β × SessionDb)} {k : β → Phase} :
    Goes env fresh e db (e.transact body (fun b => e.enter (k b)) db) := by
  unfold Execution.transact
  split
  · exact .stays _ _
  · exact .stays _ _

theorem goes_decided {env : Env} {fresh : Uuid} (d : Decision) (db' : SessionDb) :
    Goes env fresh e db (e.decided d, db') := by
  unfold Execution.decided
  split
  · exact .stays _ _
  · exact .stays _ _

/-- **Every step of an execution is one of these.** -/
theorem goes_advance (env : Env) (fresh : Uuid) (m : Meets) (e : Execution) (db : SessionDb) :
    Goes env fresh e db (e.advance env fresh m db) := by
  unfold Execution.advance
  split
  · next hphase =>
    split_ifs
    · unfold Execution.request Execution.transact
      rcases transaction_eq (requestApproval env fresh e.threadId e.turnId e.itemId e.name e.arguments)
        db with ⟨u, db', hb, hv, he⟩ | ⟨err, he⟩
      · rw [he]
        obtain ⟨-, hr⟩ := whileActive_ok hb
        have hdb := (Prod.mk.inj hr).2
        exact .asks ⟨hphase, hv, by rw [hdb]; rfl⟩
      · rw [he]
        exact .stays _ _
    · exact .stays _ _
  · unfold Execution.report Execution.transact
    split
    · split_ifs
      · exact .stays _ _
      · exact .stays _ _
    · exact .stays _ _
  · unfold Execution.handle
    split
    · exact .stays _ _
    · exact .stays _ _
    · exact goes_transact
  · split_ifs
    · exact .stays _ _
    · exact .stays _ _
  · unfold Execution.check
    split
    · exact .stays _ _
    · split_ifs
      · exact .stays _ _
      · exact .stays _ _
  · unfold Execution.read
    split
    · exact .stays _ _
    · split_ifs
      · exact .stays _ _
      · exact .stays _ _
      · exact .stays _ _
  · unfold Execution.expire
    split
    · exact .stays _ _
    · exact goes_transact
  · split_ifs
    · exact goes_decided _ _
    · exact .stays _ _
  · exact goes_transact
  · unfold Execution.report Execution.transact
    split
    · exact goes_decided _ _
    · exact .stays _ _
  · split_ifs
    · exact .stays _ _
    · exact .stays _ _
  · unfold Execution.act
    split
    · exact .stays _ _
    · exact .stays _ _
  · exact .stays _ _
  · exact .stays e.phase db

theorem Goes.sameCall {env : Env} {fresh : Uuid} {r : Execution × SessionDb}
    (h : Goes env fresh e db r) : SameCall e r.1 := by
  cases h with
  | stays => rfl
  | asks => rfl

theorem sameCall_next (uuids : Uuids) (op : Op) (he : w.executions[j]? = some e) :
    ∃ e', (next uuids w op).executions[j]? = some e' ∧ SameCall e e' := by
  rcases execution_next uuids op he with he' | ⟨env, m, -, he'⟩
  · exact ⟨e, he', rfl⟩
  · exact ⟨_, he', (goes_advance env _ m e w.db).sameCall⟩

theorem sameCall_run {ops : List Op} (he : w.executions[j]? = some e) :
    ∃ e', (run (next uuids) w ops).executions[j]? = some e' ∧ SameCall e e' := by
  refine inv_run (I := fun w : World => ∃ e', w.executions[j]? = some e' ∧ SameCall e e')
    (G := fun _ _ => True) (fun w op hw _ => ?_) ⟨e, he, rfl⟩ (along_of_forall fun _ _ => trivial)
  obtain ⟨e', he', hsame⟩ := hw
  obtain ⟨e'', he'', hsame'⟩ := sameCall_next uuids op he'
  exact ⟨e'', he'', hsame.trans hsame'⟩

/-! ### The action -/

/-- The execution that runs its action by the step. -/
def acts (w : World) : Op → Option ℕ
  | .step _ j _ =>
    (w.executions[j]?).bind fun e =>
      match e.phase with
      | .acting => some j
      | _ => none
  | _ => none

/-- The action is not run any more. -/
def Past : Phase → Prop
  | .closing _ _ | .ended => True
  | _ => False

def Ran (w : World) (j : ℕ) : Prop := ∃ e, w.executions[j]? = some e ∧ Past e.phase

theorem past_advance (env : Env) (fresh : Uuid) (m : Meets) (db : SessionDb)
    (h : e.phase = .acting ∨ Past e.phase) : Past (e.advance env fresh m db).1.phase := by
  unfold Execution.advance
  rcases h with h | h
  · rw [h]
    unfold Execution.act
    dsimp only
    split
    · trivial
    · trivial
  · cases hphase : e.phase with
    | closing => trivial
    | ended =>
      rw [hphase] at h
      dsimp only
      rw [hphase]
      trivial
    | _ =>
      rw [hphase] at h
      exact h.elim

theorem acts_eq_some (h : acts w op = some j) :
    ∃ env m e, op = .step env j m ∧ w.executions[j]? = some e ∧ e.phase = .acting := by
  unfold acts at h
  split at h
  · next env i m =>
    obtain ⟨e, he, hphase⟩ := Option.bind_eq_some_iff.mp h
    split at hphase
    · next hp =>
      obtain rfl := Option.some.inj hphase
      exact ⟨env, m, e, rfl, he, hp⟩
    · cases hphase
  · cases h

theorem ran_of_acts (h : acts w op = some j) : ¬ Ran w j ∧ Ran (next uuids w op) j := by
  obtain ⟨env, m, e, rfl, he, hphase⟩ := acts_eq_some h
  constructor
  · rintro ⟨e', he', hpast⟩
    obtain rfl := Option.some.inj (he'.symm.trans he)
    rw [hphase] at hpast
    exact hpast
  · refine ⟨(e.advance env (uuids.draw w.drawn) m w.db).1, ?_, past_advance _ _ _ _ (Or.inl hphase)⟩
    simp only [next, he]
    exact List.getElem?_set_self (List.getElem?_eq_some_iff.mp he).1

theorem Ran.next (h : Ran w j) : Ran (next uuids w op) j := by
  obtain ⟨e, he, hpast⟩ := h
  rcases execution_next uuids op he with he' | ⟨env, m, -, he'⟩
  · exact ⟨e, he', hpast⟩
  · exact ⟨_, he', past_advance _ _ _ _ (Or.inr hpast)⟩

/-! ### Decisions -/

theorem decision_stays (hg : Grows db db') {r : Approval} (hr : r ∈ db.approvals)
    (hd : r.decision ≠ .pending) : r ∈ db'.approvals := by
  obtain ⟨r', hr', he, hkept⟩ := hg.approvals r hr
  rw [hkept hd] at he
  rwa [he] at hr'

theorem grows_next (hl : Linked w) (op : Op) : Grows w.db (next uuids w op).db :=
  (does_next hl op).change.grows hl.constraints

variable (uuids) in
theorem grows_run (hl : Linked w) (ops : List Op) : Grows w.db (run (next uuids) w ops).db := by
  have hany : Along (next uuids) (fun _ _ => True) w ops := along_of_forall fun _ _ => trivial
  have hinv := inv_run (I := fun w' => Linked w' ∧ Grows w.db w'.db)
    (fun _ op h _ => ⟨linked_next h.1 op, h.2.trans (grows_next h.1 op)⟩) ⟨hl, Grows.refl _⟩ hany
  exact hinv.2

/-- **Nothing is undone**: endings and decisions stay, and no row or event of the journal is lost. -/
theorem ledger_grows (uuids : Uuids) (as bs : List Op) : Grows (after uuids as).db (after uuids (as ++ bs)).db := by
  rw [after, after, run_append]
  exact grows_run uuids (linked_after uuids as) bs

theorem row_unique (hc : db'.Constraints) (hg : Grows db db') {r r' : Approval}
    (hr : r ∈ db.approvals) (hr' : r' ∈ db'.approvals) (hid : r.id = r'.id) :
    r = { r' with decision := r.decision } := by
  obtain ⟨r'', hr'', he, -⟩ := hg.approvals r hr
  have hid' : r''.id = r.id := by rw [he]
  obtain rfl := hc.approvals.eq_of_key hr'' hr' (hid'.trans hid)
  rw [he]

/-! ### Responses -/

def NoneAllowed (db db' : SessionDb) : Prop :=
  ∀ r ∈ db'.approvals, r.decision = .allow → r ∈ db.approvals

theorem noneAllowed_of_eq (h : db'.approvals = db.approvals) : NoneAllowed db db' :=
  fun _ hr _ => h ▸ hr

theorem NoneAllowed.trans {db'' : SessionDb} (h : NoneAllowed db db') (h' : NoneAllowed db' db'') :
    NoneAllowed db db'' := fun r hr hd => h r (h' r hr hd) hd

theorem noneAllowed_expired {p : Approval → Prop} [DecidablePred p]
    (h : db'.approvals = updateWhere p (fun a => { a with decision := .expired }) db.approvals) :
    NoneAllowed db db' := by
  intro r hr hd
  rw [h] at hr
  obtain ⟨r', hr', rfl⟩ := mem_updateWhere.mp hr
  by_cases hp : p r'
  · rw [if_pos hp] at hd
    cases hd
  · rw [if_neg hp]
    exact hr'

theorem closeItems_approvals (env : Env) (threadId : String) (turnId : Uuid) (status : ItemStatus)
    (items : List Item) (db : SessionDb) :
    (closeItems env threadId turnId status items db).approvals = db.approvals := by
  induction items generalizing db with
  | nil => rfl
  | cons i items ih =>
    rw [closeItems, ih]
    rfl

theorem noneAllowed_endTurn (env : Env) (threadId : String) (turnId : Uuid) (status : TurnStatus)
    (db : SessionDb) : NoneAllowed db (endTurn env threadId turnId status db) :=
  noneAllowed_expired (closeItems_approvals env threadId turnId _ _ _)

theorem answered_approvals (env : Env) (fresh : Uuid) (threadId : String) (turnId : Uuid)
    (messageId : Option Uuid) (answer : String) (db : SessionDb) :
    (answered env fresh threadId turnId messageId answer db).2.approvals = db.approvals := by
  unfold answered
  dsimp only
  split_ifs
  · rfl
  · cases messageId <;> rfl

theorem noneAllowed_endAll (env : Env) (threadId : String) (turns : List Turn) (db : SessionDb) :
    NoneAllowed db (turns.foldl (fun db t => endTurn env threadId t.id .cancelled db) db) := by
  induction turns generalizing db with
  | nil => exact noneAllowed_of_eq rfl
  | cons t turns ih => exact (noneAllowed_endTurn env threadId t.id .cancelled db).trans (ih _)

/-- The approval is pending, its turn is active and not cancelled, and the step responds to it. -/
structure Allows (w : World) (op : Op) (r : Approval) : Prop where
  responds : Responds w r.id "allow" op
  pending : { r with decision := .pending } ∈ w.db.approvals
  active : Active r.turnId w.db
  cancel : ∃ threadId, Known threadId r.turnId w.db ∧ shouldCancel threadId w.db = false

theorem clientDecision_allow {text : String} (h : clientDecision text = .ok .allow) :
    text = "allow" := by
  unfold clientDecision at h
  split at h
  · rfl
  · cases h
  · cases h

/-- **Only a response allows.** -/
theorem allow_of_change (hc : w.db.Constraints) (h : Change uuids w op db') {r : Approval} (hr : r ∈ db'.approvals)
    (hd : r.decision = .allow) : r ∈ w.db.approvals ∨ Allows w op r := by
  cases h with
  | quiet h => exact Or.inl (noneAllowed_of_eq h.journal.approvals r hr hd)
  | opens _ _ _ h =>
    rw [h] at hr
    exact Or.inl hr
  | recovers _ _ _ _ _ h =>
    rw [h] at hr
    exact Or.inl (noneAllowed_endTurn _ _ _ _ _ r hr hd)
  | starts _ _ h =>
    rw [h] at hr
    exact Or.inl hr
  | closes _ _ h =>
    rw [h] at hr
    exact Or.inl hr
  | streams _ _ h =>
    rw [h] at hr
    exact Or.inl hr
  | progresses _ _ _ _ h =>
    rw [← (Prod.mk.inj (Except.ok.inj h)).2] at hr
    exact Or.inl hr
  | asks _ _ _ _ h =>
    rw [h] at hr
    rcases List.mem_append.mp hr with hr | hr
    · exact Or.inl hr
    · rw [List.mem_singleton.mp hr] at hd
      cases hd
  | @responds env threadId a text decision hres htext ha hp hk hactive hcancel h =>
    rw [h] at hr
    obtain ⟨r', hr', he⟩ := mem_updateWhere.mp hr
    by_cases hid : r'.id = a.id
    · rw [if_pos hid] at he
      obtain rfl := hc.approvals.eq_of_key hr' ha hid
      subst he
      have hallow : decision = .allow := hd
      subst hallow
      rw [clientDecision_allow htext] at hres
      refine Or.inr ⟨hres, ?_, hactive, threadId, hk, hcancel⟩
      rw [← hp]
      exact hr'
    · rw [if_neg hid] at he
      rw [← he]
      exact Or.inl hr'
  | expires _ _ h =>
    rw [h] at hr
    exact Or.inl (noneAllowed_expired rfl r hr hd)
  | resumes _ _ _ h =>
    rw [← (Prod.mk.inj (Except.ok.inj h)).2] at hr
    exact Or.inl hr
  | finishes _ _ _ _ h =>
    rw [h] at hr
    have hended := noneAllowed_endTurn _ _ _ _ _ r hr hd
    rw [answered_approvals] at hended
    exact Or.inl hended
  | interrupts _ _ h =>
    rw [← (Prod.mk.inj (Except.ok.inj h)).2] at hr
    exact Or.inl (noneAllowed_endAll _ _ _ _ r hr hd)

/-! ### Runs -/

theorem asks_of_next {a : Asked} (h : (next uuids w op).executions[j]? = some e)
    (ha : e.asked = some a) (hno : ¬ ∃ e₀, w.executions[j]? = some e₀ ∧ e₀.asked = some a) :
    ∃ env m e₀, op = .step env j m ∧ w.executions[j]? = some e₀ ∧ SameCall e₀ e ∧
      Asks env (uuids.draw w.drawn) e₀ w.db (next uuids w op).db ∧
      a = ⟨uuids.draw w.drawn, digestOf env e₀.name e₀.arguments⟩ := by
  rcases execution_before h with ⟨e₀, he₀⟩ | hnone
  · rcases execution_next uuids op he₀ with hsame | ⟨env, m, rfl, hstep⟩
    · obtain rfl := Option.some.inj (hsame.symm.trans h)
      exact absurd ⟨e₀, he₀, ha⟩ hno
    · have hdb : (next uuids w (.step env j m)).db =
          (e₀.advance env (uuids.draw w.drawn) m w.db).2 := by simp only [next, he₀]
      have he := Option.some.inj (hstep.symm.trans h)
      have hgoes := goes_advance env (uuids.draw w.drawn) m e₀ w.db
      rw [hdb]
      generalize e₀.advance env (uuids.draw w.drawn) m w.db = r at hgoes he
      subst he
      refine ⟨env, m, e₀, rfl, he₀, hgoes.sameCall, ?_⟩
      cases hgoes with
      | stays => exact absurd ⟨e₀, he₀, ha⟩ hno
      | asks hasks => exact ⟨hasks, (Option.some.inj ha).symm⟩
  · rw [hnone] at ha
    cases ha

/-- The row of an approval was inserted by a step of the execution `j`, for its turn, its item and the
hash of its action. -/
def AskedBy (uuids : Uuids) (ops : List Op) (j : ℕ) (e : Execution) (r : Approval) : Prop :=
  ∃ as env m bs e₀, ops = as ++ .step env j m :: bs ∧
    (after uuids as).executions[j]? = some e₀ ∧ SameCall e₀ e ∧
    (∀ r' ∈ (after uuids as).db.approvals, r'.id ≠ r.id) ∧
    r.turnId = e.turnId ∧ r.itemId = e.itemId ∧ r.actionSha256 = digestOf env e.name e.arguments ∧
    { r with decision := .pending } ∈ (after uuids (as ++ [.step env j m])).db.approvals

/-- The approval went from pending to allow by a response, while the turn was active and not
cancelled. -/
def AllowedBy (uuids : Uuids) (ops : List Op) (e : Execution) (r : Approval) : Prop :=
  ∃ as op bs, ops = as ++ op :: bs ∧ Responds (after uuids as) r.id "allow" op ∧
    { r with decision := .pending } ∈ (after uuids as).db.approvals ∧
    Active e.turnId (after uuids as).db ∧ shouldCancel e.threadId (after uuids as).db = false ∧
    { r with decision := .allow } ∈ (after uuids (as ++ [op])).db.approvals

theorem after_concat (uuids : Uuids) (as : List Op) (op : Op) :
    after uuids (as ++ [op]) = next uuids (after uuids as) op := run_append _ _ _

theorem after_split (uuids : Uuids) (as : List Op) (op : Op) (bs : List Op) :
    after uuids (as ++ op :: bs) = run (next uuids) (next uuids (after uuids as) op) bs :=
  run_append _ _ _

theorem askedBy_of_asked {ops : List Op} {a : Asked} (he : (after uuids ops).executions[j]? = some e)
    (ha : e.asked = some a) {r : Approval} (hr : r ∈ (after uuids ops).db.approvals)
    (hrow : AskedRow e a r) : AskedBy uuids ops j e r := by
  have hnone : ¬ ∃ e₀, ({} : World).executions[j]? = some e₀ ∧ e₀.asked = some a := by
    rintro ⟨e₀, he₀, -⟩
    cases he₀
  obtain ⟨as, op, bs, rfl, hbefore, e₁, he₁, ha₁⟩ :=
    exists_call_of_run (P := fun w : World => ∃ e₀, w.executions[j]? = some e₀ ∧ e₀.asked = some a)
      hnone ⟨e, he, ha⟩
  have hl : Linked (after uuids as) := linked_after uuids as
  obtain ⟨env, m, e₀, rfl, he₀, hsame, hasks, rfl⟩ := asks_of_next he₁ ha₁ hbefore
  have hkeyed : Keyed Approval.id (next uuids (after uuids as) (.step env j m)).db.approvals :=
    hasks.constraints.approvals
  rw [after_split] at he hr
  obtain ⟨e', he', hsame'⟩ := sameCall_run he₁
  obtain rfl := Option.some.inj (he'.symm.trans he)
  have hcall : SameCall e₀ e' := hsame.trans hsame'
  have hlnext : Linked (next uuids (after uuids as) (.step env j m)) := linked_next hl _
  have hg := grows_run uuids hlnext bs
  have hvalid : (run (next uuids) (next uuids (after uuids as) (.step env j m)) bs).db.Constraints := by
    have hafter := (linked_after uuids (as ++ .step env j m :: bs)).constraints
    rwa [after_split] at hafter
  obtain ⟨hid, hturn, hitem, hdigest⟩ := hrow
  have hnew : (⟨uuids.draw (after uuids as).drawn, e₀.turnId, e₀.itemId,
      digestOf env e₀.name e₀.arguments, safe env.host (actionOf e₀.name e₀.arguments), .pending,
      env.now⟩ : Approval) ∈ (next uuids (after uuids as) (.step env j m)).db.approvals := by
    rw [hasks.row]
    exact List.mem_append_right _ (List.mem_singleton.mpr rfl)
  have hunique := row_unique hvalid hg hnew hr hid.symm
  refine ⟨as, env, m, bs, e₀, rfl, he₀, hcall, fun r' hr' => ?_, hturn, hitem, ?_, ?_⟩
  · rw [hasks.row] at hkeyed
    rw [hid]
    exact (keyed_append.mp hkeyed).2.2 r' hr' _ (List.mem_singleton.mpr rfl)
  · rw [hdigest, hcall]
  · rw [after_concat, ← hunique]
    exact hnew

theorem allowedBy_of_allow {ops : List Op} {r : Approval} (hr : r ∈ (after uuids ops).db.approvals)
    (hd : r.decision = .allow) (hturn : r.turnId = e.turnId)
    (hk : Known e.threadId e.turnId (after uuids ops).db) : AllowedBy uuids ops e r := by
  have hnone : ¬ ∃ r' ∈ ({} : World).db.approvals, r'.id = r.id ∧ r'.decision = .allow := by
    rintro ⟨r', hr', -⟩
    cases hr'
  obtain ⟨as, op, bs, rfl, hbefore, r', hr', hid, hd'⟩ := exists_call_of_run
    (P := fun w : World => ∃ r' ∈ w.db.approvals, r'.id = r.id ∧ r'.decision = .allow)
      hnone ⟨r, hr, rfl, hd⟩
  have hl : Linked (after uuids as) := linked_after uuids as
  have hlnext : Linked (next uuids (after uuids as) op) := linked_next hl op
  have hg := grows_run uuids hlnext bs
  have hvalid := (linked_after uuids (as ++ op :: bs)).constraints
  rw [after_split] at hr hk hvalid
  have hne : r'.decision ≠ .pending := by
    rw [hd']
    exact Decision.noConfusion
  obtain rfl : r' = r := hvalid.approvals.eq_of_key (decision_stays hg hr' hne) hr hid
  rcases allow_of_change hl.constraints (does_next hl op).change hr' hd' with hold | hallows
  · exact absurd ⟨r', hold, rfl, hd'⟩ hbefore
  · obtain ⟨hresponds, hpending, hactive, threadId, hknown, hcancel⟩ := hallows
    rw [hturn] at hactive hknown
    have hthread : threadId = e.threadId := by
      obtain ⟨t, ht, htid, rfl⟩ := (hknown.grows (grows_next hl op)).grows hg
      obtain ⟨t', ht', htid', hthread⟩ := hk
      rw [← hthread, hvalid.turns.eq_of_key ht ht' (htid.trans htid'.symm)]
    subst hthread
    refine ⟨as, op, bs, rfl, hresponds, hpending, hactive, hcancel, ?_⟩
    rw [after_concat, ← hd']
    exact hr'

/-- **Exact approval along a run.** -/
structure ExactApproval (uuids : Uuids) (ops : List Op) : Prop where
  /-- no execution runs its action twice -/
  once : (outputs (next uuids) acts {} ops).Nodup
  /-- an action that needs an approval is run after the approval that its execution has asked for was
  allowed -/
  allowed : ∀ {bs op cs j e}, ops = bs ++ op :: cs → acts (after uuids bs) op = some j →
    (after uuids bs).executions[j]? = some e → e.mode = .ask → e.name ∉ readTools →
    ∃ r, AskedBy uuids bs j e r ∧ AllowedBy uuids bs e r
  /-- a decision stays -/
  final : Along (next uuids) (fun w op => ∀ r ∈ w.db.approvals, r.decision ≠ .pending →
    r ∈ (next uuids w op).db.approvals) {} ops

theorem exact_approval (uuids : Uuids) (ops : List Op) : ExactApproval uuids ops := by
  refine ⟨?_, ?_, ?_⟩
  · exact (outputs_nodup (I := fun _ => True) (D := Ran) (fun _ _ _ => trivial)
      (fun w op j _ h => ran_of_acts h) (fun w op j _ h => h.next) trivial).1
  · intro bs op cs j e _ hacts he hmode hname
    obtain ⟨env, m, e', -, he', hphase⟩ := acts_eq_some hacts
    obtain rfl := Option.some.inj (he'.symm.trans he)
    have hlinked := (linked_after uuids bs).executions e' (List.mem_of_getElem? he)
    have hcleared : Cleared e'.phase := by
      rw [hphase]
      trivial
    obtain ⟨a, ha, r, hr, hrow, hd⟩ := hlinked.cleared hcleared ⟨hmode, hname⟩
    exact ⟨r, askedBy_of_asked he ha hr hrow, allowedBy_of_allow hr hd hrow.2.1 hlinked.known⟩
  · exact along_of_linked (fun w op hl r hr hd => decision_stays (grows_next hl op) hr hd) ops

end Smara.Session.Approvals
