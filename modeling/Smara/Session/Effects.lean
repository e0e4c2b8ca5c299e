import Smara.Session.Steps

/-! # What a step does to the ledger

`Change` says once what a step can do to the tables of the protocol, with what the step has checked
for it. `Grows` is what every change is a case of: rows stay, with the columns that name them, ended
turns stay ended, decisions stay as they are, and the journal is only appended to. `Linked` relates
the objects of a process to the rows that they name. -/

namespace Smara.Session.Effects

open Lib.Machine Lib.Table Lib.Transaction
open TaskStore.Schema (Uuid Digest)
open Goals.Schema (Json Uuids)
open Session.Schema Session.Envelope Session.Protocol Session.Steps

variable {uuids : Uuids} {w w' : World} {op : Op} {db db' : SessionDb}

/-! ### Rows -/

theorem active_of_mem (hc : Keyed Turn.id db.turns) {t : Turn} (h : Active t.id db)
    (ht : t ∈ db.turns) : t.status.Active := by
  obtain ⟨t', ht', hactive⟩ := h
  obtain ⟨hmem, hid⟩ := (lookup_eq_some_iff hc).mp ht'
  rw [← hc.eq_of_key hmem ht hid]
  exact hactive

theorem active_iff (hc : Keyed Turn.id db.turns) {turnId : Uuid} :
    Active turnId db ↔ ∃ t ∈ db.turns, t.id = turnId ∧ t.status.Active := by
  constructor
  · rintro ⟨t, ht, hactive⟩
    obtain ⟨hmem, hid⟩ := (lookup_eq_some_iff hc).mp ht
    exact ⟨t, hmem, hid, hactive⟩
  · rintro ⟨t, hmem, hid, hactive⟩
    exact ⟨t, (lookup_eq_some_iff hc).mpr ⟨hmem, hid⟩, hactive⟩

/-! ### Growth -/

/-- **What every step does to the ledger.** -/
structure Grows (db db' : SessionDb) : Prop where
  turns : ∀ t ∈ db.turns, ∃ t' ∈ db'.turns, t'.id = t.id ∧ t'.threadId = t.threadId ∧
    (t'.status.Active → t.status.Active)
  items : ∀ i ∈ db.items, ∃ i' ∈ db'.items, i'.id = i.id ∧ i'.turnId = i.turnId ∧
    (i'.status = .running → i.status = .running)
  approvals : ∀ a ∈ db.approvals, ∃ a' ∈ db'.approvals, a' = { a with decision := a'.decision } ∧
    (a.decision ≠ .pending → a'.decision = a.decision)
  events : db.events <+: db'.events

theorem Grows.refl (db : SessionDb) : Grows db db :=
  ⟨fun t ht => ⟨t, ht, rfl, rfl, id⟩, fun i hi => ⟨i, hi, rfl, rfl, id⟩,
    fun a ha => ⟨a, ha, rfl, fun _ => rfl⟩, List.prefix_rfl⟩

theorem Grows.trans {db'' : SessionDb} (h : Grows db db') (h' : Grows db' db'') : Grows db db'' := by
  refine ⟨fun t ht => ?_, fun i hi => ?_, fun a ha => ?_, h.events.trans h'.events⟩
  · obtain ⟨t', ht', hid, hthread, hactive⟩ := h.turns t ht
    obtain ⟨t'', ht'', hid', hthread', hactive'⟩ := h'.turns t' ht'
    exact ⟨t'', ht'', hid'.trans hid, hthread'.trans hthread, fun hs => hactive (hactive' hs)⟩
  · obtain ⟨i', hi', hid, hturn, hrunning⟩ := h.items i hi
    obtain ⟨i'', hi'', hid', hturn', hrunning'⟩ := h'.items i' hi'
    exact ⟨i'', hi'', hid'.trans hid, hturn'.trans hturn, fun hs => hrunning (hrunning' hs)⟩
  · obtain ⟨a', ha', he, hd⟩ := h.approvals a ha
    obtain ⟨a'', ha'', he', hd'⟩ := h'.approvals a' ha'
    refine ⟨a'', ha'', ?_, fun hp => ?_⟩
    · rw [he', he]
    · have hd₁ := hd hp
      have hp' : a'.decision ≠ .pending := by rwa [hd₁]
      exact (hd' hp').trans hd₁

/-- The tables of the protocol are the same. -/
structure SameJournal (db db' : SessionDb) : Prop where
  turns : db'.turns = db.turns
  items : db'.items = db.items
  approvals : db'.approvals = db.approvals
  events : db'.events = db.events
  seq : db'.eventSeq = db.eventSeq

theorem SameJournal.refl (db : SessionDb) : SameJournal db db := ⟨rfl, rfl, rfl, rfl, rfl⟩

theorem SameJournal.grows (h : SameJournal db db') : Grows db db' := by
  refine ⟨?_, ?_, ?_, ?_⟩
  · rw [h.turns]
    exact (Grows.refl db).turns
  · rw [h.items]
    exact (Grows.refl db).items
  · rw [h.approvals]
    exact (Grows.refl db).approvals
  · exact h.events ▸ List.prefix_rfl

theorem grows_event (db : SessionDb) (threadId : String) (turnId : Uuid) (kind : EventKind)
    (payload : Json) (now : Smara.TaskStore.Schema.Time) :
    Grows db (db.event threadId turnId kind payload now) :=
  ⟨(Grows.refl db).turns, (Grows.refl db).items, (Grows.refl db).approvals,
    List.prefix_append db.events _⟩

theorem grows_updTurns {p : Turn → Prop} [DecidablePred p] {f : Turn → Turn}
    (hid : ∀ t, (f t).id = t.id) (hthread : ∀ t, (f t).threadId = t.threadId)
    (hactive : ∀ t ∈ db.turns, p t → (f t).status.Active → t.status.Active) :
    Grows db (db.updTurns p f) := by
  refine ⟨fun t ht => ?_, (Grows.refl db).items, (Grows.refl db).approvals, List.prefix_rfl⟩
  refine ⟨if p t then f t else t, mem_updateWhere.mpr ⟨t, ht, rfl⟩, ?_⟩
  by_cases hp : p t
  · rw [if_pos hp]
    exact ⟨hid t, hthread t, hactive t ht hp⟩
  · rw [if_neg hp]
    exact ⟨rfl, rfl, id⟩

theorem grows_updItems {p : Item → Prop} [DecidablePred p] {f : Item → Item}
    (hid : ∀ i, (f i).id = i.id) (hturn : ∀ i, (f i).turnId = i.turnId)
    (hrunning : ∀ i ∈ db.items, p i → (f i).status = .running → i.status = .running) :
    Grows db (db.updItems p f) := by
  refine ⟨(Grows.refl db).turns, fun i hi => ?_, (Grows.refl db).approvals, List.prefix_rfl⟩
  refine ⟨if p i then f i else i, mem_updateWhere.mpr ⟨i, hi, rfl⟩, ?_⟩
  by_cases hp : p i
  · rw [if_pos hp]
    exact ⟨hid i, hturn i, hrunning i hi hp⟩
  · rw [if_neg hp]
    exact ⟨rfl, rfl, id⟩

theorem grows_updApprovals {p : Approval → Prop} [DecidablePred p] {decision : Decision}
    (hp : ∀ a ∈ db.approvals, p a → a.decision = .pending) :
    Grows db (db.updApprovals p fun a => { a with decision := decision }) := by
  refine ⟨(Grows.refl db).turns, (Grows.refl db).items, fun a ha => ?_, List.prefix_rfl⟩
  refine ⟨if p a then { a with decision := decision } else a, mem_updateWhere.mpr ⟨a, ha, rfl⟩, ?_⟩
  by_cases hpa : p a
  · rw [if_pos hpa]
    exact ⟨rfl, fun h => absurd (hp a ha hpa) h⟩
  · rw [if_neg hpa]
    exact ⟨rfl, fun _ => rfl⟩

theorem grows_closeItems (env : Env) (threadId : String) (turnId : Uuid) {status : ItemStatus}
    (hs : status ≠ .running) (items : List Item) (db : SessionDb) :
    Grows db (closeItems env threadId turnId status items db) := by
  induction items generalizing db with
  | nil => exact Grows.refl db
  | cons i items ih =>
    have hitem : Grows db (db.updItems (fun j => j.id = i.id) fun j => { j with status := status }) :=
      grows_updItems (fun _ => rfl) (fun _ => rfl) fun _ _ _ h => absurd h hs
    exact (hitem.trans (grows_event _ threadId turnId .itemCompleted _ env.now)).trans (ih _)

theorem closedStatus_ne_running (status : TurnStatus) : closedStatus status ≠ .running := by
  unfold closedStatus
  split_ifs
  · decide
  · decide

theorem grows_endedTurn (env : Env) (turnId : Uuid) {status : TurnStatus} (hs : ¬ status.Active)
    (db : SessionDb) : Grows db (endedTurn env turnId status db) := by
  have hturn : Grows db (db.updTurns (fun t => t.id = turnId)
      fun t => { t with status := status, endedAt := some env.now }) :=
    grows_updTurns (fun _ => rfl) (fun _ => rfl) fun _ _ _ h => absurd h hs
  exact hturn.trans (grows_updApprovals fun _ _ h => h.2)

theorem grows_endTurn (env : Env) (threadId : String) (turnId : Uuid) {status : TurnStatus}
    (hs : ¬ status.Active) (db : SessionDb) : Grows db (endTurn env threadId turnId status db) :=
  ((grows_endedTurn env turnId hs db).trans
    (grows_closeItems env threadId turnId (closedStatus_ne_running status) _ _)).trans
    (grows_event _ threadId turnId .turnCompleted _ env.now)

theorem grows_endAll (env : Env) (threadId : String) (turns : List Turn) (db : SessionDb) :
    Grows db (turns.foldl (fun db t => endTurn env threadId t.id .cancelled db) db) := by
  induction turns generalizing db with
  | nil => exact Grows.refl db
  | cons t turns ih => exact (grows_endTurn env threadId t.id (by decide) db).trans (ih _)

theorem grows_opened (env : Env) (turnId : Uuid) (threadId : String) (mode : ApprovalMode)
    (db : SessionDb) : Grows db (opened env turnId threadId mode db) :=
  ⟨fun t ht => ⟨t, List.mem_append_left _ ht, rfl, rfl, id⟩, (Grows.refl db).items,
    (Grows.refl db).approvals, List.prefix_append db.events _⟩

theorem grows_recovered (env : Env) (threadId : String) (turnId : Uuid) (db : SessionDb) :
    Grows db (recovered env threadId turnId db) :=
  (grows_endTurn env threadId turnId (by decide) db).trans
    (grows_event _ threadId turnId .turnInterrupted _ env.now)

theorem grows_insertItem (env : Env) (itemId : Uuid) (threadId : String) (turnId : Uuid)
    (kind : String) (payload : Json) (db : SessionDb) :
    Grows db (insertItem env itemId threadId turnId kind payload db) :=
  ⟨(Grows.refl db).turns, fun i hi => ⟨i, List.mem_append_left _ hi, rfl, rfl, id⟩,
    (Grows.refl db).approvals, List.prefix_append db.events _⟩

theorem grows_closeItem (env : Env) (threadId : String) (turnId itemId : Uuid) (payload : Json)
    (status : ItemStatus) (db : SessionDb) :
    Grows db (closeItem env threadId turnId itemId payload status db) := by
  have hitem : Grows db (db.updItems (Running turnId itemId)
      fun i => { i with status := status, payload := payload }) :=
    grows_updItems (fun _ => rfl) (fun _ => rfl) fun _ _ h _ => h.2.2
  exact hitem.trans (grows_event _ threadId turnId .itemCompleted _ env.now)

theorem grows_appendDelta (env : Env) (threadId : String) (turnId messageId : Uuid) (text : String)
    (payload : Json) (db : SessionDb) :
    Grows db (appendDelta env threadId turnId messageId text payload db) := by
  have hitem : Grows db (db.updItems (fun i => i.id = messageId)
      fun i => { i with payload := appendText text payload }) :=
    grows_updItems (fun _ => rfl) (fun _ => rfl) fun _ _ _ h => h
  exact hitem.trans (grows_event _ threadId turnId .itemDelta _ env.now)

theorem grows_completeMessage (env : Env) (threadId : String) (turnId messageId : Uuid)
    (payload : Json) (db : SessionDb) :
    Grows db (completeMessage env threadId turnId messageId payload db) := by
  have hitem : Grows db (db.updItems (fun i => i.id = messageId)
      fun i => { i with status := .completed, payload := payload }) :=
    grows_updItems (fun _ => rfl) (fun _ => rfl) fun _ _ _ h => absurd h ItemStatus.noConfusion
  exact hitem.trans (grows_event _ threadId turnId .itemCompleted _ env.now)

theorem grows_answered (env : Env) (fresh : Uuid) (threadId : String) (turnId : Uuid)
    (messageId : Option Uuid) (answer : String) (db : SessionDb) :
    Grows db (answered env fresh threadId turnId messageId answer db).2 := by
  unfold answered
  dsimp only
  split_ifs
  · exact Grows.refl db
  · cases messageId with
    | some id => exact grows_completeMessage env threadId turnId id _ db
    | none =>
      exact (grows_insertItem env fresh threadId turnId _ _ db).trans
        (grows_completeMessage env threadId turnId fresh _ _)

theorem grows_insertApproval (hc : Keyed Turn.id db.turns) {turnId : Uuid} (h : Active turnId db)
    (env : Env) (approvalId : Uuid) (threadId : String) (itemId : Uuid) (digest : Digest)
    (action : Json) :
    Grows db (insertApproval env approvalId threadId turnId itemId digest action db) := by
  have happroval : Grows db { db with
      approvals := db.approvals ++
        [⟨approvalId, turnId, itemId, digest, action, .pending, env.now⟩] } :=
    ⟨(Grows.refl db).turns, (Grows.refl db).items,
      fun a ha => ⟨a, List.mem_append_left _ ha, rfl, fun _ => rfl⟩, List.prefix_rfl⟩
  have hturn : ∀ db' : SessionDb, db'.turns = db.turns → Grows db'
      (db'.updTurns (fun t => t.id = turnId) fun t => { t with status := .waitingApproval }) := by
    intro db' hsame
    refine grows_updTurns (fun _ => rfl) (fun _ => rfl) fun t ht hid _ => ?_
    rw [hsame] at ht
    exact active_of_mem hc (hid ▸ h) ht
  exact (happroval.trans (hturn _ rfl)).trans (grows_event _ threadId turnId .approvalRequested _ env.now)

theorem grows_resolved (hc : Keyed Approval.id db.approvals) {a : Approval} (ha : a ∈ db.approvals)
    (hp : a.decision = .pending) (env : Env) (threadId : String) (turnId : Uuid)
    (decision : Decision) : Grows db (resolved env threadId turnId a.id decision db) := by
  have hall : ∀ a' ∈ db.approvals, a'.id = a.id → a'.decision = .pending := by
    intro a' ha' hid
    rw [hc.eq_of_key ha' ha hid]
    exact hp
  exact (grows_updApprovals hall).trans (grows_event _ threadId turnId .approvalResolved _ env.now)

/-! ### Objects and rows -/

def Known (threadId : String) (turnId : Uuid) (db : SessionDb) : Prop :=
  ∃ t ∈ db.turns, t.id = turnId ∧ t.threadId = threadId

def Owns (turnId itemId : Uuid) (db : SessionDb) : Prop :=
  ∃ i ∈ db.items, i.id = itemId ∧ i.turnId = turnId

def AskedRow (e : Execution) (a : Asked) (r : Approval) : Prop :=
  r.id = a.approvalId ∧ r.turnId = e.turnId ∧ r.itemId = e.itemId ∧ r.actionSha256 = a.digest

def Decided (e : Execution) (decision : Decision) (db : SessionDb) : Prop :=
  ∃ a ∈ e.asked, ∃ r ∈ db.approvals, AskedRow e a r ∧ r.decision = decision

def foundIn : Phase → Option Decision
  | .counting d | .resuming d | .reporting d => some d
  | _ => none

/-- The execution may run the action. -/
def Cleared : Phase → Prop
  | .ready | .acting => True
  | _ => False

/-- The rows that an execution names, and what it knows of the decision. -/
structure ExecutionLinked (e : Execution) (db : SessionDb) : Prop where
  known : Known e.threadId e.turnId db
  item : Owns e.turnId e.itemId db
  asked : ∀ a ∈ e.asked, ∃ r ∈ db.approvals, AskedRow e a r
  found : ∀ d ∈ foundIn e.phase, d ≠ .pending ∧ Decided e d db
  cleared : Cleared e.phase → NeedsApproval e → Decided e .allow db

/-- The rows that the rest of a call names. -/
def RestLinked (db : SessionDb) : Rest → Prop
  | .record threadId turnId _ _ => Known threadId turnId db
  | .complete threadId turnId itemId _ => Known threadId turnId db ∧ Owns turnId itemId db
  | .delta threadId turnId messageId _ => Known threadId turnId db ∧ Owns turnId messageId db
  | _ => True

/-- The rows that the object of a turn names. -/
structure TurnLinked (db : SessionDb) (p : ProtocolTurn) : Prop where
  known : Known p.threadId p.turnId db
  message : ∀ m ∈ p.messageId, Owns p.turnId m db

/-- **The objects of the processes name rows of the ledger.** -/
structure Linked (w : World) : Prop where
  constraints : w.db.Constraints
  turns : ∀ p ∈ w.turns, TurnLinked w.db p
  executions : ∀ e ∈ w.executions, ExecutionLinked e w.db
  calls : ∀ c ∈ w.calls, RestLinked w.db c

theorem Known.grows {threadId : String} {turnId : Uuid} (h : Known threadId turnId db)
    (hg : Grows db db') : Known threadId turnId db' := by
  obtain ⟨t, ht, rfl, rfl⟩ := h
  obtain ⟨t', ht', hid, hthread, -⟩ := hg.turns t ht
  exact ⟨t', ht', hid, hthread⟩

theorem Owns.grows {turnId itemId : Uuid} (h : Owns turnId itemId db) (hg : Grows db db') :
    Owns turnId itemId db' := by
  obtain ⟨i, hi, rfl, rfl⟩ := h
  obtain ⟨i', hi', hid, hturn, -⟩ := hg.items i hi
  exact ⟨i', hi', hid, hturn⟩

theorem askedRow_grows {e : Execution} {a : Asked} {r : Approval} (hr : r ∈ db.approvals)
    (h : AskedRow e a r) (hg : Grows db db') :
    ∃ r' ∈ db'.approvals, AskedRow e a r' ∧ (r.decision ≠ .pending → r'.decision = r.decision) := by
  obtain ⟨r', hr', he, hd⟩ := hg.approvals r hr
  refine ⟨r', hr', ?_, hd⟩
  rw [he]
  exact h

theorem Decided.grows {e : Execution} {d : Decision} (h : Decided e d db) (hd : d ≠ .pending)
    (hg : Grows db db') : Decided e d db' := by
  obtain ⟨a, ha, r, hr, hrow, rfl⟩ := h
  obtain ⟨r', hr', hrow', hkept⟩ := askedRow_grows hr hrow hg
  exact ⟨a, ha, r', hr', hrow', hkept hd⟩

theorem ExecutionLinked.grows {e : Execution} (h : ExecutionLinked e db) (hg : Grows db db') :
    ExecutionLinked e db' := by
  refine ⟨h.known.grows hg, h.item.grows hg, fun a ha => ?_, fun d hd => ?_, fun hp hn => ?_⟩
  · obtain ⟨r, hr, hrow⟩ := h.asked a ha
    obtain ⟨r', hr', hrow', -⟩ := askedRow_grows hr hrow hg
    exact ⟨r', hr', hrow'⟩
  · obtain ⟨hne, hdecided⟩ := h.found d hd
    exact ⟨hne, hdecided.grows hne hg⟩
  · exact (h.cleared hp hn).grows Decision.noConfusion hg

theorem TurnLinked.grows {p : ProtocolTurn} (h : TurnLinked db p) (hg : Grows db db') :
    TurnLinked db' p := ⟨h.known.grows hg, fun m hm => (h.message m hm).grows hg⟩

theorem RestLinked.grows {c : Rest} (h : RestLinked db c) (hg : Grows db db') :
    RestLinked db' c := by
  cases c with
  | record => exact Known.grows h hg
  | complete => exact ⟨h.1.grows hg, h.2.grows hg⟩
  | delta => exact ⟨h.1.grows hg, h.2.grows hg⟩
  | endActive => trivial
  | refresh => trivial
  | nothing => trivial

/-! ### The envelope -/

theorem same_checkpointed (env : Env) (c : Checkpoint) (status : Option SessionStatus)
    (row : RuntimeSession) (db : SessionDb) : SameJournal db (checkpointed env c status row db) := by
  unfold checkpointed
  dsimp only
  split
  · exact ⟨rfl, rfl, rfl, rfl, rfl⟩
  · exact ⟨rfl, rfl, rfl, rfl, rfl⟩

theorem same_checkpoint {env : Env} {id : String} {c : Checkpoint} {u : Unit}
    (h : checkpoint env id c db = .ok (u, db')) : SameJournal db db' := by
  obtain ⟨status, -, h⟩ := bind_ok h
  split at h
  · cases h
  · next row _ =>
    split at h
    · rw [← (Prod.mk.inj (Except.ok.inj h)).2]
      exact same_checkpointed env c status row db
    · rw [← (Prod.mk.inj (Except.ok.inj h)).2]
      exact SameJournal.refl db

theorem same_requestCancel {env : Env} {id reason : String} {u : Unit}
    (h : requestCancel env id reason db = .ok (u, db')) : SameJournal db db' := by
  unfold requestCancel at h
  dsimp only at h
  split at h
  · cases h
  · split at h
    · rw [← (Prod.mk.inj (Except.ok.inj h)).2]
      exact ⟨rfl, rfl, rfl, rfl, rfl⟩
    · split at h
      · rw [← (Prod.mk.inj (Except.ok.inj h)).2]
        exact SameJournal.refl db
      · rw [← (Prod.mk.inj (Except.ok.inj h)).2]
        exact ⟨rfl, rfl, rfl, rfl, rfl⟩

theorem same_appendEvent {env : Env} {id kind : String} {payload : Json} {u : Unit}
    (h : appendEvent env id kind payload db = .ok (u, db')) : SameJournal db db' := by
  unfold appendEvent at h
  dsimp only at h
  split at h
  · cases h
  · split at h
    · cases h
    · rw [← (Prod.mk.inj (Except.ok.inj h)).2]
      exact ⟨rfl, rfl, rfl, rfl, rfl⟩

theorem same_createOrGet {env : Env} {fresh : Uuid} {given : Option String} {request id : String}
    (h : createOrGet env fresh given request db = .ok (id, db')) : SameJournal db db' := by
  rw [← (Prod.mk.inj (Except.ok.inj h)).2]
  unfold inserted
  split
  · exact SameJournal.refl db
  · exact ⟨rfl, rfl, rfl, rfl, rfl⟩

theorem same_refresh {env : Env} {id request : String} {u : Unit}
    (h : refresh env id request db = .ok (u, db')) : SameJournal db db' := by
  rw [← (Prod.mk.inj (Except.ok.inj h)).2]
  exact ⟨rfl, rfl, rfl, rfl, rfl⟩

/-- The process of a call. -/
def envOf : Op → Option Env
  | .createOrGet env _ _ => some env
  | .startTurn env _ _ => some env
  | .appendEvent env _ _ _ => some env
  | .checkpoint env _ _ => some env
  | .requestCancel env _ _ => some env
  | .begin env _ _ _ _ => some env
  | .respond env _ _ _ _ _ => some env
  | .interrupt env _ => some env
  | .bindExecution _ _ _ => none
  | .item env _ _ _ => some env
  | .completeItem env _ _ _ _ => some env
  | .execute env _ _ _ => some env
  | .textDelta env _ _ => some env
  | .progress env _ _ _ => some env
  | .finish env _ _ _ => some env
  | .step env _ _ => some env
  | .rest env _ => some env

/-- **What a step that leaves the journal alone does.** -/
inductive Envelops (w : World) (op : Op) (db' : SessionDb) : Prop
  | idle (h : db' = w.db)
  | creates {env fresh given request id} (henv : env ∈ envOf op)
      (h : createOrGet env fresh given request w.db = .ok (id, db'))
  | refreshes {env j id request} (hop : op = .rest env j)
      (hcall : w.calls[j]? = some (.refresh id request)) (h : refresh env id request w.db = .ok ((), db'))
  | appends {env id kind payload} (henv : env ∈ envOf op)
      (h : appendEvent env id kind payload w.db = .ok ((), db'))
  | checkpoints {env id c} (henv : env ∈ envOf op) (h : checkpoint env id c w.db = .ok ((), db'))
  | cancels {env id reason} (henv : env ∈ envOf op)
      (h : requestCancel env id reason w.db = .ok ((), db'))

theorem Envelops.journal (h : Envelops w op db') : SameJournal w.db db' := by
  cases h with
  | idle h =>
    rw [h]
    exact SameJournal.refl w.db
  | creates _ h => exact same_createOrGet h
  | refreshes _ _ h => exact same_refresh h
  | appends _ h => exact same_appendEvent h
  | checkpoints _ h => exact same_checkpoint h
  | cancels _ h => exact same_requestCancel h

/-! ### Changes -/

/-- The call, or the step of an execution, responds to the approval with the decision. -/
inductive Responds (w : World) (approvalId : Uuid) (decision : String) : Op → Prop
  | client {env threadId turnId sha256} :
      Responds w approvalId decision (.respond env threadId approvalId turnId sha256 decision)
  | handler {env j m e a} (he : w.executions[j]? = some e) (hphase : e.phase = .handing)
      (ha : e.asked = some a) (hid : a.approvalId = approvalId) (hm : m.handled = .returns decision) :
      Responds w approvalId decision (.step env j m)

/-- What a call records of a new item of the turn. -/
inductive Brings (w : World) : Op → Uuid → Json → Prop
  | item {env : Env} {k p kind payload} (hp : w.turns[k]? = some p) :
      Brings w (.item env k kind payload) p.turnId (safe env.host payload)
  | action {env : Env} {k name arguments turnId} :
      Brings w (.execute env k name arguments) turnId (safe env.host (actionOf name arguments))
  | message {op turnId} {env : Env} : Brings w op turnId (safe env.host (.obj [("text", .str "")]))
  | record {env : Env} {j threadId turnId kind payload}
      (hc : w.calls[j]? = some (.record threadId turnId kind payload)) :
      Brings w (.rest env j) turnId (safe env.host payload)

inductive Completes (w : World) : Op → Uuid → Uuid → Json → ItemStatus → Prop
  | item {env : Env} {k p itemId payload failed} (hp : w.turns[k]? = some p) :
      Completes w (.completeItem env k itemId payload failed) p.turnId itemId
        (safe env.host payload) (if failed then .failed else .completed)
  | execution {env : Env} {j m e payload status} (he : w.executions[j]? = some e)
      (hphase : e.phase = .closing payload status) :
      Completes w (.step env j m) e.turnId e.itemId (safe env.host payload) status
  | record {env : Env} {j threadId turnId itemId payload}
      (hc : w.calls[j]? = some (.complete threadId turnId itemId payload)) :
      Completes w (.rest env j) turnId itemId (safe env.host payload) .completed

/-- **What a step can do to the tables of the protocol.** -/
inductive Change (uuids : Uuids) (w : World) (op : Op) (db' : SessionDb) : Prop
  | quiet (h : Envelops w op db')
  | opens {env threadId request mode mode' handler}
      (hop : op = .begin env threadId request mode handler) (hs : (w.db.session threadId).isSome)
      (hnone : activeTurn threadId w.db = none)
      (h : db' = opened env (uuids.draw w.drawn) threadId mode' w.db)
  | recovers {env threadId request mode mode' handler t}
      (hop : op = .begin env threadId request mode handler)
      (hchecked : beginChecked request mode = .ok mode') (hs : (w.db.session threadId).isSome)
      (ht : activeTurn threadId w.db = some t) (ho : Orphaned env.host t)
      (h : db' = opened env (uuids.draw w.drawn) threadId mode' (recovered env threadId t.id w.db))
  | starts {env threadId turnId kind payload} (hb : Brings w op turnId payload)
      (ha : Active turnId w.db)
      (h : db' = insertItem env (uuids.draw w.drawn) threadId turnId kind payload w.db)
  | closes {env threadId turnId itemId payload status}
      (hcomp : Completes w op turnId itemId payload status)
      (hi : ∃ i ∈ w.db.items, Running turnId itemId i)
      (h : db' = closeItem env threadId turnId itemId payload status w.db)
  | streams {env threadId i text} (hi : i ∈ w.db.items) (hr : i.status = .running)
      (h : db' = appendDelta env threadId i.turnId i.id text i.payload w.db)
  | progresses {env k p kind data} (hop : op = .progress env k kind data) (hp : w.turns[k]? = some p)
      (hkind : journaled kind) (hk : Known p.threadId p.turnId w.db)
      (h : Protocol.progress env p.threadId p.turnId kind data w.db = .ok ((), db'))
  | asks {env j m e digest action} (hop : op = .step env j m) (he : w.executions[j]? = some e)
      (hphase : e.phase = .begun) (ha : Active e.turnId w.db)
      (h : db' = insertApproval env (uuids.draw w.drawn) e.threadId e.turnId e.itemId digest action w.db)
  | responds {env threadId a text decision} (hr : Responds w a.id text op)
      (hd : clientDecision text = .ok decision) (ha : a ∈ w.db.approvals)
      (hp : a.decision = .pending) (hk : Known threadId a.turnId w.db) (hactive : Active a.turnId w.db)
      (hc : shouldCancel threadId w.db = false)
      (h : db' = resolved env threadId a.turnId a.id decision w.db)
  | expires {env threadId a} (ha : a ∈ w.db.approvals) (hp : a.decision = .pending)
      (h : db' = resolved env threadId a.turnId a.id .expired w.db)
  | resumes {env j m e d} (hop : op = .step env j m) (he : w.executions[j]? = some e)
      (hphase : e.phase = .resuming d) (h : resumeTurn e.turnId w.db = .ok ((), db'))
  | finishes {env k p text answer status} (hop : op = .finish env k text answer)
      (hp : w.turns[k]? = some p) (ha : Active p.turnId w.db) (hs : ¬ status.Active)
      (h : db' = endTurn env p.threadId p.turnId status
        (answered env (uuids.draw w.drawn) p.threadId p.turnId p.messageId answer w.db).2)
  | interrupts {env j threadId} (hop : op = .rest env j)
      (hcall : w.calls[j]? = some (.endActive threadId))
      (h : endActive env threadId w.db = .ok ((), db'))

theorem Change.grows (h : Change uuids w op db') (hc : w.db.Constraints) : Grows w.db db' := by
  cases h with
  | quiet h => exact h.journal.grows
  | opens _ _ _ h =>
    rw [h]
    exact grows_opened _ _ _ _ _
  | recovers _ _ _ _ _ h =>
    rw [h]
    exact (grows_recovered _ _ _ _).trans (grows_opened _ _ _ _ _)
  | starts _ _ h =>
    rw [h]
    exact grows_insertItem _ _ _ _ _ _ _
  | closes _ _ h =>
    rw [h]
    exact grows_closeItem _ _ _ _ _ _ _
  | streams _ _ h =>
    rw [h]
    exact grows_appendDelta _ _ _ _ _ _ _
  | progresses _ _ _ _ h =>
    rw [← (Prod.mk.inj (Except.ok.inj h)).2]
    exact grows_event _ _ _ _ _ _
  | asks _ _ _ ha h =>
    rw [h]
    exact grows_insertApproval hc.turns ha _ _ _ _ _ _
  | responds _ _ ha hp _ _ _ h =>
    rw [h]
    exact grows_resolved hc.approvals ha hp _ _ _ _
  | expires ha hp h =>
    rw [h]
    exact grows_resolved hc.approvals ha hp _ _ _ _
  | resumes _ _ _ h =>
    rw [← (Prod.mk.inj (Except.ok.inj h)).2]
    exact grows_updTurns (fun _ => rfl) (fun _ => rfl) fun t _ hp _ => Or.inr hp.2
  | finishes _ _ _ hs h =>
    rw [h]
    exact (grows_answered _ _ _ _ _ _ _).trans (grows_endTurn _ _ _ hs _)
  | interrupts _ _ h =>
    rw [← (Prod.mk.inj (Except.ok.inj h)).2]
    exact grows_endAll _ _ _ _

/-! ### The transactions -/

/-- The change of a step, which leaves the keys of the schema as they should be. -/
structure Does (uuids : Uuids) (w : World) (op : Op) (db' : SessionDb) : Prop where
  change : Change uuids w op db'
  constraints : db'.Constraints

theorem does_nothing (hc : w.db.Constraints) : Does uuids w op w.db := ⟨.quiet (.idle rfl), hc⟩

theorem does_transaction (hc : w.db.Constraints) {β : Type}
    {body : SessionDb → Except Err (β × SessionDb)}
    (h : ∀ b db', body w.db = .ok (b, db') → Change uuids w op db') :
    Does uuids w op (transaction body w.db).2 := by
  rcases transaction_eq body w.db with ⟨b, db', hb, hv, he⟩ | ⟨e, he⟩
  · rw [he]
    exact ⟨h b db' hb, hv⟩
  · rw [he]
    exact does_nothing hc

theorem whileActive_ok {β : Type} {turnId : Uuid} {body : SessionDb → β × SessionDb} {r : β × SessionDb}
    (h : whileActive turnId body db = .ok r) : Active turnId db ∧ r = body db := by
  unfold whileActive at h
  split at h
  · cases h
  · next t ht =>
    split at h
    · next hactive => exact ⟨⟨t, ht, hactive⟩, (Except.ok.inj h).symm⟩
    · cases h

end Smara.Session.Effects
