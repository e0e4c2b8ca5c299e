import Smara.Session.Cancels
import Smara.Session.Fences
import Smara.Session.Silence

/-! # Two ledgers and one outcome

The worker of the app server ends a turn by two transactions: a checkpoint of the envelope, which the
turn fences, and `finish`. The `interrupt` of a client has two others: `request_cancel`, which a
terminal envelope ignores, and the end of the active turn. `Outcome` is what the four read and write of
the two ledgers; `sees_next` says that their steps do to the ledgers what `Outcome.move` does.

* `agree_iff`: in every interleaving the ledgers agree in the end exactly when `finish` comes before
  the end of the active turn, or the worker has been cancelled itself and its checkpoint comes before
  that end, or the envelope that `request_cancel` meets has not ended otherwise.
* `disagree_after_ignored`: a run in which they do not. -/

namespace Smara.Session.Outcomes

open Lib.Machine Lib.Table Lib.Transaction
open TaskStore.Schema (Uuid Time)
open Goals.Schema (Json Uuids)
open Session.Schema Session.Envelope Session.Protocol Session.Steps
open Session.Effects Session.Links Session.Endings
open Session.Rows Session.Numbers Session.Fences Session.Silence
open Session.Cancels (Fit fit_after)

variable {uuids : Uuids} {w : World} {op : Op} {db db' : SessionDb} {env : Env}

/-! ### The worker and the client -/

inductive WorkerStatus
  | completed | failed | cancelled | needsInput
  deriving DecidableEq

def workerStatus : String → WorkerStatus
  | "completed" => .completed
  | "failed" => .failed
  | "cancelled" => .cancelled
  | "needs_input" => .needsInput
  | _ => .failed

namespace WorkerStatus

def text : WorkerStatus → String
  | .completed => "completed"
  | .failed => "failed"
  | .cancelled => "cancelled"
  | .needsInput => "needs_input"

def session : WorkerStatus → SessionStatus
  | .completed => .completed
  | .failed => .failed
  | .cancelled => .cancelled
  | .needsInput => .needsInput

def turn : WorkerStatus → TurnStatus
  | .completed => .completed
  | .failed => .failed
  | .cancelled => .cancelled
  | .needsInput => .needsInput

theorem sessionStatus_text (s : WorkerStatus) : sessionStatus s.text = some s.session := by
  cases s <;> rfl

theorem finishStatus_text (s : WorkerStatus) : finishStatus s.text = s.turn := by
  cases s <;> decide

end WorkerStatus

/-- The transactions of the worker and of the client. -/
inductive Move
  | checkpoint
  | finish
  | request
  | endActive
  deriving DecidableEq

/-- What the worker has come to, and where each transaction runs. -/
structure Inputs where
  env : Move → Env
  status : String
  result : Option Json
  unresolved : Option (List String)
  answer : String

/-- The transaction of the worker of the turn object `k`, or of a client whose `interrupt` is the call
`j`. -/
def opOf (x : Inputs) (p : ProtocolTurn) (k j : ℕ) : Move → Op
  | .checkpoint => .checkpoint (x.env .checkpoint) p.threadId {
      status := some (workerStatus x.status).text
      result := x.result
      unresolved := x.unresolved
      expectedTurnId := some p.turnId }
  | .finish => .finish (x.env .finish) k (workerStatus x.status).text x.answer
  | .request => .interrupt (x.env .request) p.threadId
  | .endActive => .rest (x.env .endActive) j

/-! ### What they read and write -/

/-- Where the `interrupt` stands. -/
inductive Client
  | idle | asked | done
  deriving DecidableEq

/-- The status and the flag of the envelope, the status of the turn, and where the `interrupt` stands. -/
structure Outcome where
  status : SessionStatus
  flag : Bool
  turn : TurnStatus
  client : Client := .idle
  deriving DecidableEq

namespace Outcome

/-- The envelope has ended otherwise than by a cancellation. -/
def Ignored (o : Outcome) : Prop := o.status.Terminal ∧ o.status ≠ .cancelled

instance (o : Outcome) : Decidable o.Ignored := inferInstanceAs (Decidable (_ ∧ _))

def move (s : WorkerStatus) (o : Outcome) : Move → Outcome
  | .checkpoint =>
    if o.turn.Active then
      { o with status := if o.flag ∧ s.session ≠ .cancelled then .cancelled else s.session }
    else o
  | .finish => if o.turn.Active then { o with turn := if o.flag then .cancelled else s.turn } else o
  | .request =>
    { o with
      status := if o.Ignored then o.status else .cancelled
      flag := if o.Ignored then o.flag else true
      client := if o.client = .idle then .asked else o.client }
  | .endActive =>
    if o.client = .asked then
      { o with
        turn := if o.turn.Active then .cancelled else o.turn
        client := .done }
    else o

end Outcome

/-- The ledgers show the outcome of the turn. -/
structure Sees (p : ProtocolTurn) (k j : ℕ) (w : World) (o : Outcome) : Prop where
  session : ∃ s, w.db.session p.threadId = some s ∧ s.status = o.status ∧ s.cancelRequested = o.flag
  turn : ∃ t, latestTurn p.threadId w.db = some t ∧ t.id = p.turnId ∧ t.status = o.turn
  others : ∀ t ∈ w.db.turns, t.threadId = p.threadId → t.status.Active → t.id = p.turnId
  object : ∃ q, w.turns[k]? = some q ∧ q.threadId = p.threadId ∧ q.turnId = p.turnId
  client : match o.client with
    | .idle => w.calls.length = j
    | .asked => w.calls[j]? = some (.endActive p.threadId)
    | .done => w.calls[j]? = some .nothing

/-- What holds of a world before a step of the race. -/
structure Ready (uuids : Uuids) (w : World) : Prop where
  regular : Regular w
  items : ItemsDrawn uuids w

theorem ready_next (h : Ready uuids w) (op : Op) : Ready uuids (next uuids w op) :=
  ⟨regular_next h.regular op, itemsDrawn_next h.regular.settled.linked h.items op⟩

theorem ready_after (uuids : Uuids) (ops : List Op) : Ready uuids (after uuids ops) := by
  have hempty : Ready uuids {} := ⟨regular_empty, fun _ h => absurd h List.not_mem_nil⟩
  exact inv_run (I := Ready uuids) (G := fun _ _ => True) (fun _ op h _ => ready_next h op) hempty
    (along_of_forall fun _ _ => trivial)

/-! ### The latest turn -/

theorem latestTurn_congr {id : String} (h : db'.turns = db.turns) :
    latestTurn id db' = latestTurn id db := by
  unfold latestTurn
  rw [h]

theorem latestTurn_endTurn {id threadId : String} {turnId : Uuid} {status : TurnStatus} :
    latestTurn id (endTurn env threadId turnId status db) = (latestTurn id db).map fun t =>
      if t.id = turnId then { t with status := status, endedAt := some env.now } else t := by
  let g : Turn → Turn := fun t =>
    if t.id = turnId then { t with status := status, endedAt := some env.now } else t
  have hthread : ∀ t, (g t).threadId = t.threadId := by
    intro t
    by_cases ht : t.id = turnId
    · rw [show g t = _ from if_pos ht]
    · rw [show g t = t from if_neg ht]
  have hcreated : ∀ t, (g t).createdAt = t.createdAt := by
    intro t
    by_cases ht : t.id = turnId
    · rw [show g t = _ from if_pos ht]
    · rw [show g t = t from if_neg ht]
  have hturns : (endTurn env threadId turnId status db).turns = db.turns.map g := endTurn_turns
  unfold latestTurn
  rw [hturns, List.filter_map, ← firstBy_map]
  · congr 2
    refine List.filter_congr fun t _ => ?_
    rw [Function.comp_apply, hthread]
  · intro t t'
    change (g t').createdAt < (g t).createdAt ↔ _
    rw [hcreated, hcreated]

section Sees
variable {p : ProtocolTurn} {k j : ℕ} {o : Outcome} {x : Inputs}

theorem turn_of_latest (hc : db.Constraints) {id : String} {t : Turn} (h : latestTurn id db = some t) :
    t ∈ db.turns ∧ t.threadId = id ∧ db.turn t.id = some t := by
  obtain ⟨hmem, hthread⟩ := List.mem_filter.mp (mem_of_firstBy h)
  exact ⟨hmem, of_decide_eq_true hthread, lookup_key hc.turns hmem⟩

theorem session_congr {id : String} (h : SameSessions db db') : db'.session id = db.session id := by
  unfold SessionDb.session
  rw [h.sessions]

theorem current_iff_active (h : Sees p k j w o) :
    Current p.threadId (some p.turnId) w.db ↔ o.turn.Active := by
  obtain ⟨t, ht, hid, hstatus⟩ := h.turn
  constructor
  · intro hcurrent
    obtain ⟨t', ht', -, hactive⟩ := hcurrent p.turnId rfl
    obtain rfl := Option.some.inj (ht.symm.trans ht')
    exact hstatus ▸ hactive
  · intro hactive x hx
    obtain rfl := Option.some.inj hx
    exact ⟨t, ht, hid, hstatus ▸ hactive⟩

theorem sees_checkpoint (hr : Ready uuids w) (h : Sees p k j w o) :
    Sees p k j (next uuids w (opOf x p k j .checkpoint)) (o.move (workerStatus x.status) .checkpoint) := by
  obtain ⟨s, hs, hstatus, hflag⟩ := h.session
  let c : Checkpoint := {
    status := some (workerStatus x.status).text
    result := x.result
    unresolved := x.unresolved
    expectedTurnId := some p.turnId }
  have hnamed : c.named = .ok (some (workerStatus x.status).session) := by
    unfold Checkpoint.named
    simp only [c, WorkerStatus.sessionStatus_text]
  have hok : checkpoint (x.env .checkpoint) p.threadId c w.db = .ok ((), _) := checkpoint_eq hnamed hs
  have hw : Written False (some (x.env .checkpoint)) p.threadId w.db _ := written_checkpoint rfl hok
  have hdb : (next uuids w (opOf x p k j .checkpoint)).db = _ :=
    write_commits hok (constraints_of_written hw hr.regular.settled.linked.constraints hr.regular.counted)
  have hturns : (next uuids w (opOf x p k j .checkpoint)).db.turns = w.db.turns := by
    rw [hdb]
    exact (same_checkpoint hok).turns
  have hobject : (next uuids w (opOf x p k j .checkpoint)).turns = w.turns := rfl
  have hcalls : (next uuids w (opOf x p k j .checkpoint)).calls = w.calls := rfl
  refine ⟨?_, ?_, ?_, ?_, ?_⟩
  · rw [hdb]
    simp only [Outcome.move]
    by_cases hactive : o.turn.Active
    · rw [if_pos hactive]
      have hcurrent : Current p.threadId c.expectedTurnId w.db := (current_iff_active h).mpr hactive
      rw [if_pos hcurrent]
      have hrow : checkpointed (x.env .checkpoint) c (some (workerStatus x.status).session) s w.db =
          w.db.updSessions (fun t => t.id = s.id)
            (settled (x.env .checkpoint) c (some (workerStatus x.status).session)) := rfl
      have hsid : s.id = p.threadId := key_of_lookup hs
      refine ⟨settled (x.env .checkpoint) c (some (workerStatus x.status).session) s, ?_, ?_, hflag⟩
      · rw [hrow, hsid, session_updSessions, if_pos rfl, hs]
        · rfl
        · exact fun _ => rfl
      · unfold settled
        simp only [Option.getD_some, ← hflag]
    · rw [if_neg hactive]
      have hcurrent : ¬ Current p.threadId c.expectedTurnId w.db :=
        fun hcur => hactive ((current_iff_active h).mp hcur)
      rw [if_neg hcurrent]
      exact ⟨s, hs, hstatus, hflag⟩
  · rw [latestTurn_congr hturns]
    obtain ⟨t, ht, hid, hturn⟩ := h.turn
    refine ⟨t, ht, hid, ?_⟩
    simp only [Outcome.move]
    split_ifs <;> exact hturn
  · rw [hturns]
    exact h.others
  · rw [hobject]
    exact h.object
  · rw [hcalls]
    have hclient : (o.move (workerStatus x.status) .checkpoint).client = o.client := by
      simp only [Outcome.move]
      split_ifs <;> rfl
    rw [hclient]
    exact h.client

/-! ### `finish` -/

theorem constraints_completeMessage (hc : db.Constraints) {threadId : String} {turnId messageId : Uuid}
    {payload : Json} : (completeMessage env threadId turnId messageId payload db).Constraints := by
  refine ⟨hc.sessions, hc.sessionEvents, hc.turns, hc.single, ?_, hc.approvals⟩
  refine (keyed_updateWhere ?_).mpr hc.items
  exact fun _ _ => rfl

theorem constraints_insertItem (hc : db.Constraints) {threadId : String} {turnId fresh : Uuid}
    (hnew : fresh ∉ db.items.map Item.id) {kind : String} {payload : Json} :
    (insertItem env fresh threadId turnId kind payload db).Constraints := by
  refine ⟨hc.sessions, hc.sessionEvents, hc.turns, hc.single, ?_, hc.approvals⟩
  refine keyed_append.mpr ⟨hc.items, List.nodup_singleton _, fun i hi i' hi' hid => ?_⟩
  rw [List.mem_singleton.mp hi'] at hid
  exact hnew (List.mem_map.mpr ⟨i, hi, hid⟩)

theorem constraints_answered (hc : db.Constraints) {threadId : String} {turnId fresh : Uuid}
    (hnew : fresh ∉ db.items.map Item.id) {messageId : Option Uuid} {answer : String} :
    (answered env fresh threadId turnId messageId answer db).2.Constraints := by
  unfold answered
  dsimp only
  split_ifs
  · exact hc
  · cases messageId with
    | some id => exact constraints_completeMessage hc
    | none => exact constraints_completeMessage (constraints_insertItem hc hnew)

theorem others_endTurn {status : TurnStatus}
    (h : ∀ t ∈ db.turns, t.threadId = p.threadId → t.status.Active → t.id = p.turnId) :
    ∀ t ∈ (endTurn env p.threadId p.turnId status db).turns, t.threadId = p.threadId →
      t.status.Active → t.id = p.turnId := by
  intro t' ht' hthread hactive
  rw [endTurn_turns] at ht'
  obtain ⟨t, ht, rfl⟩ := mem_updateWhere.mp ht'
  split_ifs at hthread hactive ⊢ with hid
  · exact hid
  · exact h t ht hthread hactive

theorem not_active_turn (s : WorkerStatus) : ¬ s.turn.Active := by
  cases s <;> decide

theorem sees_finish (hr : Ready uuids w) (h : Sees p k j w o) :
    Sees p k j (next uuids w (opOf x p k j .finish)) (o.move (workerStatus x.status) .finish) := by
  have hc := hr.regular.settled.linked.constraints
  obtain ⟨s, hs, hstatus, hflag⟩ := h.session
  obtain ⟨t, ht, hid, hturn⟩ := h.turn
  obtain ⟨q, hq, hthread, hqid⟩ := h.object
  obtain ⟨hmem, hmine, hrow⟩ := turn_of_latest hc ht
  have hcancel : shouldCancel p.threadId w.db = o.flag := by
    unfold shouldCancel
    rw [hs]
    exact hflag
  let r := answered (x.env .finish) (uuids.draw w.drawn) p.threadId p.turnId q.messageId x.answer w.db
  let status := if o.flag then TurnStatus.cancelled else (workerStatus x.status).turn
  have hended : ¬ status.Active := by
    simp only [status]
    split_ifs
    · decide
    · exact not_active_turn _
  have hbody : finish (x.env .finish) (uuids.draw w.drawn) q.threadId q.turnId q.messageId
      (workerStatus x.status).text x.answer w.db =
        if o.turn.Active then
          .ok (r.1, endTurn (x.env .finish) p.threadId p.turnId status r.2)
        else .ok (q.messageId, w.db) := by
    unfold finish
    rw [hqid, hthread, ← hid, hrow]
    simp only [hturn, hcancel, WorkerStatus.finishStatus_text, hid]
    rfl
  have hnext : next uuids w (opOf x p k j .finish) =
      w.andThen (finish (x.env .finish) (uuids.draw w.drawn) q.threadId q.turnId q.messageId
        (workerStatus x.status).text x.answer) fun messageId w =>
          { w with turns := w.turns.modify k fun turn => { turn with messageId := messageId } } := by
    simp only [opOf, next, World.onTurn, hq]
  have hobject : ∀ m : Option Uuid, ∃ q', (w.turns.modify k fun turn =>
      { turn with messageId := m })[k]? = some q' ∧ q'.threadId = p.threadId ∧
        q'.turnId = p.turnId := by
    intro m
    rw [List.getElem?_modify_eq, hq]
    exact ⟨_, rfl, hthread, hqid⟩
  have hclient : (o.move (workerStatus x.status) .finish).client = o.client := by
    simp only [Outcome.move]
    split_ifs <;> rfl
  by_cases hactive : o.turn.Active
  · rw [if_pos hactive] at hbody
    have hconstraints : (endTurn (x.env .finish) p.threadId p.turnId status r.2).Constraints :=
      constraints_endTurn (constraints_answered hc hr.items.new) hended
    rw [hnext, andThen_commits hbody hconstraints]
    have hsame : SameSessions w.db (endTurn (x.env .finish) p.threadId p.turnId status r.2) :=
      sessions_answered.trans (sessions_endTurn _ _ _ _ _)
    have hturns : r.2.turns = w.db.turns := answered_turns
    refine ⟨?_, ?_, ?_, hobject _, ?_⟩
    · dsimp only
      rw [session_congr hsame]
      simp only [Outcome.move, if_pos hactive]
      exact ⟨s, hs, hstatus, hflag⟩
    · dsimp only
      rw [latestTurn_endTurn, latestTurn_congr hturns, ht]
      refine ⟨_, rfl, ?_⟩
      dsimp only
      rw [if_pos hid]
      simp only [Outcome.move, if_pos hactive]
      exact ⟨hid, rfl⟩
    · refine others_endTurn ?_
      rw [hturns]
      exact h.others
    · rw [hclient]
      exact h.client
  · rw [if_neg hactive] at hbody
    rw [hnext, andThen_commits hbody hc]
    simp only [Outcome.move, if_neg hactive]
    exact ⟨⟨s, hs, hstatus, hflag⟩, ⟨t, ht, hid, hturn⟩, h.others, hobject _, h.client⟩

/-! ### `interrupt` -/

theorem session_requestCancel {id reason : String} {s : RuntimeSession} (hs : db.session id = some s) :
    ∃ db' s', requestCancel env id reason db = .ok ((), db') ∧ db'.session id = some s' ∧
      s'.status = (if s.status.Terminal ∧ s.status ≠ .cancelled then s.status else .cancelled) ∧
      s'.cancelRequested =
        (if s.status.Terminal ∧ s.status ≠ .cancelled then s.cancelRequested else true) := by
  unfold requestCancel
  dsimp only
  rw [hs]
  dsimp only
  split_ifs with hignored hagain
  · refine ⟨_, { s with revision := s.revision + 1, updatedAt := env.now }, rfl, ?_, rfl, rfl⟩
    rw [session_updSessions, if_pos rfl]
    · exact congrArg (Option.map _) hs
    · exact fun _ => rfl
  · exact ⟨db, s, rfl, hs, hagain.2, hagain.1⟩
  · refine ⟨_, cancelled env (Smara.TaskStore.Lifecycle.clip 500
      (orElse (some reason) "cancelled by user")) s, rfl, ?_, rfl, rfl⟩
    rw [session_updSessions, if_pos rfl]
    · exact congrArg (Option.map _) hs
    · exact fun _ => rfl

theorem sees_request (hr : Ready uuids w) (h : Sees p k j w o) :
    Sees p k j (next uuids w (opOf x p k j .request)) (o.move (workerStatus x.status) .request) := by
  have hc := hr.regular.settled.linked.constraints
  obtain ⟨s, hs, hstatus, hflag⟩ := h.session
  obtain ⟨db', s', hbody, hs', hstatus', hflag'⟩ :=
    session_requestCancel hs
  have hw : Written False (some (x.env .request)) p.threadId w.db db' :=
    written_requestCancel rfl hbody
  have hnext : next uuids w (opOf x p k j .request) = World.call (.endActive p.threadId)
      { w with db := db', drawn := w.drawn + 1 } :=
    andThen_commits hbody (constraints_of_written hw hc hr.regular.counted)
  have hturns : db'.turns = w.db.turns := (same_requestCancel hbody).turns
  rw [hnext]
  refine ⟨⟨s', hs', ?_, ?_⟩, ?_, ?_, h.object, ?_⟩
  · rw [hstatus', hstatus]
    rfl
  · rw [hflag', hstatus, hflag]
    rfl
  · obtain ⟨t, ht, hid, hturn⟩ := h.turn
    exact ⟨t, (latestTurn_congr hturns).trans ht, hid, hturn⟩
  · change ∀ t ∈ db'.turns, _
    rw [hturns]
    exact h.others
  · have hcalls := h.client
    change match (if o.client = .idle then Client.asked else o.client) with
      | .idle => (w.calls ++ [Rest.endActive p.threadId]).length = j
      | .asked => (w.calls ++ [Rest.endActive p.threadId])[j]? = some (.endActive p.threadId)
      | .done => (w.calls ++ [Rest.endActive p.threadId])[j]? = some .nothing
    cases hcl : o.client with
    | idle =>
      rw [hcl] at hcalls
      simp only at hcalls
      simp [← hcalls]
    | asked =>
      rw [hcl] at hcalls
      simp only at hcalls
      simp only [reduceCtorEq, if_false]
      rw [List.getElem?_append_left (List.getElem?_eq_some_iff.mp hcalls).1]
      exact hcalls
    | done =>
      rw [hcl] at hcalls
      simp only at hcalls
      simp only [reduceCtorEq, if_false]
      rw [List.getElem?_append_left (List.getElem?_eq_some_iff.mp hcalls).1]
      exact hcalls

theorem not_active_of_none {id : String} (h : activeTurn id db = none) {t : Turn} (ht : t ∈ db.turns)
    (hthread : t.threadId = id) : ¬ t.status.Active :=
  fun hactive => List.find?_eq_none.mp h t ht (decide_eq_true ⟨hthread, hactive⟩)

theorem sees_ended (hc : w.db.Constraints) (h : Sees p k j w o) {u : Unit}
    (hbody : endActive env p.threadId w.db = .ok (u, db')) :
    db'.Constraints ∧ SameSessions w.db db' ∧
      (∃ t, latestTurn p.threadId db' = some t ∧ t.id = p.turnId ∧
        t.status = if o.turn.Active then .cancelled else o.turn) ∧
      ∀ t ∈ db'.turns, t.threadId = p.threadId → t.status.Active → t.id = p.turnId := by
  obtain ⟨t, ht, hid, hturn⟩ := h.turn
  obtain ⟨hmem, hthread, -⟩ := turn_of_latest hc ht
  rcases endActive_cases hc hbody with ⟨hnone, rfl⟩ | ⟨t', hsome, rfl⟩
  · have hactive : ¬ o.turn.Active := hturn ▸ not_active_of_none hnone hmem hthread
    rw [if_neg hactive]
    exact ⟨hc, ⟨rfl, rfl⟩, ⟨t, ht, hid, hturn⟩, h.others⟩
  · obtain ⟨hmem', hthread', hactive'⟩ := activeTurn_some hsome
    have hid' := h.others t' hmem' hthread' hactive'
    obtain rfl := hc.turns.eq_of_key hmem' hmem (hid'.trans hid.symm)
    have hactive : o.turn.Active := hturn ▸ hactive'
    rw [if_pos hactive, hid']
    refine ⟨constraints_endTurn hc (by decide), sessions_endTurn _ _ _ _ _, ?_, others_endTurn h.others⟩
    rw [latestTurn_endTurn, ht]
    refine ⟨_, rfl, ?_⟩
    dsimp only
    rw [if_pos hid]
    exact ⟨hid, rfl⟩

theorem sees_endActive (hr : Ready uuids w) (h : Sees p k j w o) :
    Sees p k j (next uuids w (opOf x p k j .endActive))
      (o.move (workerStatus x.status) .endActive) := by
  have hc := hr.regular.settled.linked.constraints
  have hcalls := h.client
  simp only [opOf, next, Outcome.move]
  cases hcl : o.client with
  | idle =>
    rw [hcl] at hcalls
    simp only at hcalls
    rw [List.getElem?_eq_none hcalls.le, if_neg (by decide)]
    exact h
  | done =>
    rw [hcl] at hcalls
    simp only at hcalls
    rw [hcalls, if_neg (by decide)]
    simp only [Rest.advance]
    refine ⟨h.session, h.turn, h.others, h.object, ?_⟩
    rw [hcl]
    exact List.getElem?_set_self (List.getElem?_eq_some_iff.mp hcalls).1
  | asked =>
    rw [hcl] at hcalls
    simp only at hcalls
    obtain ⟨db', hbody⟩ : ∃ db', endActive (x.env .endActive) p.threadId w.db = .ok ((), db') :=
      ⟨_, rfl⟩
    obtain ⟨hc', hsame, hlatest, hothers⟩ := sees_ended hc h hbody
    have hcommit : transaction (endActive (x.env .endActive) p.threadId) w.db = (.ok (), db') :=
      commit_of_ok hbody hc'
    rw [hcalls, if_pos rfl]
    simp only [Rest.advance, hcommit]
    refine ⟨?_, hlatest, hothers, h.object, ?_⟩
    · dsimp only
      rw [session_congr hsame]
      exact h.session
    · exact List.getElem?_set_self (List.getElem?_eq_some_iff.mp hcalls).1

/-- **Each step does to the ledgers what it does to the outcome.** -/
theorem sees_next (hr : Ready uuids w) (h : Sees p k j w o) (m : Move) :
    Sees p k j (next uuids w (opOf x p k j m)) (o.move (workerStatus x.status) m) := by
  cases m with
  | checkpoint => exact sees_checkpoint hr h
  | finish => exact sees_finish hr h
  | request => exact sees_request hr h
  | endActive => exact sees_endActive hr h

theorem sees_run (hr : Ready uuids w) (h : Sees p k j w o) (ms : List Move) :
    Sees p k j (run (next uuids) w (ms.map (opOf x p k j)))
      (run (Outcome.move (workerStatus x.status)) o ms) := by
  induction ms generalizing w o with
  | nil => exact h
  | cons m ms ih => exact ih (ready_next hr _) (sees_next hr h m)

end Sees

/-! ### The outcome of the race -/

/-- The ledgers agree on the turn: both have been cancelled, or both show the status of the worker. -/
def Agree (status : WorkerStatus) (p : ProtocolTurn) (db : SessionDb) : Prop :=
  ∃ s ∈ db.session p.threadId, ∃ t ∈ latestTurn p.threadId db, t.id = p.turnId ∧
    s.status.text = t.status.text ∧ (t.status = .cancelled ∨ t.status = status.turn)

def EndedOtherwise (id : String) (db : SessionDb) : Prop :=
  ∃ s ∈ db.session id, s.status.Terminal ∧ s.status ≠ .cancelled

/-- `finish` comes before the end of the active turn; or the worker brings a cancellation itself, and its
checkpoint comes before that end; or `request_cancel` is heard: it comes before the checkpoint and the
envelope had not ended before, or the session was flagged from the start. -/
def InTime (status : WorkerStatus) (flagged ended : Prop) (ms : List Move) : Prop :=
  ms.idxOf .finish < ms.idxOf .endActive ∨
    (status = .cancelled ∧ ms.idxOf .checkpoint < ms.idxOf .endActive) ∨
    (ms.idxOf .request < ms.idxOf .checkpoint ∧ ¬ ended) ∨
    (ms.idxOf .checkpoint < ms.idxOf .request ∧ flagged)

instance (status : WorkerStatus) (flagged ended : Prop) [Decidable flagged] [Decidable ended]
    (ms : List Move) : Decidable (InTime status flagged ended ms) :=
  inferInstanceAs (Decidable (_ ∨ _ ∨ _ ∨ _))

theorem orders {ms : List Move}
    (h : Interleaves [Move.checkpoint, .finish] [.request, .endActive] ms) :
    ms = [.checkpoint, .finish, .request, .endActive] ∨
      ms = [.checkpoint, .request, .finish, .endActive] ∨
      ms = [.checkpoint, .request, .endActive, .finish] ∨
      ms = [.request, .checkpoint, .finish, .endActive] ∨
      ms = [.request, .checkpoint, .endActive, .finish] ∨
      ms = [.request, .endActive, .checkpoint, .finish] := by
  simpa [interleaves_cons_cons, interleaves_nil_left, interleaves_nil_right, or_assoc] using h

theorem outcome_agrees (status : WorkerStatus) {o : Outcome} (hflag : o.flag → o.status = .cancelled)
    (hactive : o.turn.Active) (hclient : o.client = .idle) {ms : List Move}
    (hms : Interleaves [Move.checkpoint, .finish] [.request, .endActive] ms) :
    ((run (Outcome.move status) o ms).status.text = (run (Outcome.move status) o ms).turn.text ∧
      ((run (Outcome.move status) o ms).turn = .cancelled ∨
        (run (Outcome.move status) o ms).turn = status.turn)) ↔
    InTime status o.flag o.Ignored ms := by
  obtain ⟨envelope, flag, turn, client⟩ := o
  obtain rfl : client = .idle := hclient
  have hturn : turn = .running ∨ turn = .waitingApproval := hactive
  have hflag' : flag = false ∨ (flag = true ∧ envelope = .cancelled) := by
    cases flag with
    | false => exact Or.inl rfl
    | true => exact Or.inr ⟨rfl, hflag rfl⟩
  rcases orders hms with rfl | rfl | rfl | rfl | rfl | rfl <;>
    rcases hturn with rfl | rfl <;> rcases hflag' with rfl | ⟨rfl, rfl⟩ <;>
      first
      | (cases status <;> decide)
      | (cases status <;> cases envelope <;> decide)

theorem agree_iff_of_sees {k j : ℕ} {p : ProtocolTurn} {o : Outcome} (h : Sees p k j w o)
    (status : WorkerStatus) : Agree status p w.db ↔
      o.status.text = o.turn.text ∧ (o.turn = .cancelled ∨ o.turn = status.turn) := by
  obtain ⟨s, hs, hstatus, -⟩ := h.session
  obtain ⟨t, ht, hid, hturn⟩ := h.turn
  constructor
  · rintro ⟨s', hs', t', ht', -, hequal, hended⟩
    obtain rfl := Option.some.inj (hs.symm.trans hs')
    obtain rfl := Option.some.inj (ht.symm.trans ht')
    rw [← hstatus, ← hturn]
    exact ⟨hequal, hended⟩
  · rintro ⟨hequal, hended⟩
    rw [← hstatus, ← hturn] at hequal
    rw [← hturn] at hended
    exact ⟨s, hs, t, ht, hid, hequal, hended⟩

theorem sees_start (uuids : Uuids) (ops : List Op) {k : ℕ} {p : ProtocolTurn}
    (hp : (after uuids ops).turns[k]? = some p)
    (hcurrent : Current p.threadId (some p.turnId) (after uuids ops).db) :
    ∃ o : Outcome, Sees p k (after uuids ops).calls.length (after uuids ops) o ∧
      o.turn.Active ∧ o.client = .idle ∧ (o.flag → o.status = .cancelled) ∧
      (o.flag ↔ shouldCancel p.threadId (after uuids ops).db) ∧
      (o.Ignored ↔ EndedOtherwise p.threadId (after uuids ops).db) := by
  have hr : Regular (after uuids ops) := regular_after uuids ops
  have hc := hr.settled.linked.constraints
  obtain ⟨t, ht, hid, hactive⟩ := hcurrent p.turnId rfl
  obtain ⟨hmem, hthread, -⟩ := turn_of_latest hc ht
  obtain ⟨s, hs⟩ := Option.isSome_iff_exists.mp (hthread ▸ hr.housed t hmem)
  refine ⟨⟨s.status, s.cancelRequested, t.status, .idle⟩, ⟨⟨s, hs, rfl, rfl⟩, ⟨t, ht, hid, rfl⟩, ?_,
    ⟨p, hp, rfl, rfl⟩, rfl⟩, hactive, rfl, (fit_after uuids ops).flagged _ s hs, ?_, ?_⟩
  · intro t' hmem' hthread' hactive'
    have hsame : t' = t := hc.single.eq_of_key
      (List.mem_filter.mpr ⟨hmem', decide_eq_true hactive'⟩)
      (List.mem_filter.mpr ⟨hmem, decide_eq_true hactive⟩) (hthread'.trans hthread.symm)
    rw [hsame, hid]
  · unfold shouldCancel
    rw [hs]
  · constructor
    · exact fun h => ⟨s, hs, h⟩
    · rintro ⟨s', hs', h⟩
      obtain rfl := Option.some.inj (hs.symm.trans hs')
      exact h

/-- **The ledgers agree exactly when one of the two writers is in time**: in every state that is reached,
for the worker of the active turn and an `interrupt`, in every order of their transactions. -/
theorem agree_iff (uuids : Uuids) (ops : List Op) {k : ℕ} {p : ProtocolTurn}
    (hp : (after uuids ops).turns[k]? = some p)
    (hcurrent : Current p.threadId (some p.turnId) (after uuids ops).db) (x : Inputs) {ms : List Move}
    (hms : Interleaves [Move.checkpoint, .finish] [.request, .endActive] ms) :
    Agree (workerStatus x.status) p (run (next uuids) (after uuids ops)
        (ms.map (opOf x p k (after uuids ops).calls.length))).db ↔
      InTime (workerStatus x.status) (shouldCancel p.threadId (after uuids ops).db)
        (EndedOtherwise p.threadId (after uuids ops).db) ms := by
  obtain ⟨o, hsees, hactive, hclient, hflag, hflagged, hended⟩ := sees_start uuids ops hp hcurrent
  have hrun := sees_run (x := x) (ready_after uuids ops) hsees ms
  rw [agree_iff_of_sees hrun, outcome_agrees _ hflag hactive hclient hms]
  unfold InTime
  rw [hflagged, hended]

/-- What the worker of `firstSteps` has come to. -/
def answer : Inputs where
  env := fun
    | .checkpoint => clock 5
    | .request => clock 6
    | .endActive => clock 7
    | .finish => clock 8
  status := "completed"
  result := some (.obj [])
  unresolved := some []
  answer := "done"

/-- The worker of `firstSteps`. -/
def worker : ProtocolTurn where
  threadId := "chat"
  turnId := ids.draw 1
  mode := .auto
  handler := false

theorem agree_finished_first : Agree .completed worker (run (next ids) (after ids firstSteps)
    ([Move.checkpoint, .finish, .request, .endActive].map (opOf answer worker 0 1))).db :=
  (agree_iff ids firstSteps (k := 0) (p := worker) rfl (by decide) answer
    (.left (.left (.right (.right .nil))))).mpr (Or.inl (by decide))

/-- The worker has checkpointed, so the request is ignored; then the turn is cancelled, and `finish` comes
too late. -/
theorem disagree_after_ignored :
    Interleaves [Move.checkpoint, .finish] [.request, .endActive]
        [.checkpoint, .request, .endActive, .finish] ∧
      ¬ Agree .completed worker (run (next ids) (after ids firstSteps)
        ([Move.checkpoint, .request, .endActive, .finish].map (opOf answer worker 0 1))).db := by
  refine ⟨.left (.right (.right (.left .nil))), ?_⟩
  rintro ⟨s, hs, t, ht, -, hequal, -⟩
  revert s t
  decide

end Smara.Session.Outcomes
