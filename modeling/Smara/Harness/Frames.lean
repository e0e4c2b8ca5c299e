import Smara.Harness.Engine

/-! # What the operations leave alone

Most statements of the engine write the table `state` or `events`. `Unmoved` says that the calls and
the receipts for reuse are as before, `Others` what a cancellation may do between two statements.

* `quiet_event`, `quiet_admitted`, …: the parts of an operation that keep a relation.
* `calm_program`: every operation but `store_plan`, `continue_run` and `execute_incremental` leaves the
  calls and the receipts alone. -/

namespace Smara.Harness.Frames

open Lib.Table Lib.Scripts
open TaskStore.Schema (Time)
open Goals.Schema (Json)
open Harness.Schema Harness.Engine

/-! ### Others -/

/-- What a cancellation may have done. -/
structure Others (j j' : Journal) : Prop where
  calls : j'.calls = j.calls
  evidence : j'.evidence = j.evidence
  state : { j'.state with cancelled := j.state.cancelled } = j.state

theorem others_refl (j : Journal) : Others j j := ⟨rfl, rfl, rfl⟩

theorem others_trans {j j' j'' : Journal} (h : Others j j') (h' : Others j' j'') : Others j j'' := by
  refine ⟨h'.calls.trans h.calls, h'.evidence.trans h.evidence, ?_⟩
  rw [← h.state, ← h'.state]

theorem others_cancel (x : Cancel) (j : Journal) : Others j (cancel x j) := by
  cases x <;> exact ⟨rfl, rfl, rfl⟩

theorem Others.field {j j' : Journal} (h : Others j j') {α : Type} (f : State → α)
    (hf : ∀ s c, f { s with cancelled := c } = f s) : f j'.state = f j.state := by
  rw [← hf j'.state j.state.cancelled, h.state]

/-! ### Questions -/

def Talk : Ask → Prop
  | .execute _ _ => False
  | _ => True

/-! ### Parts of operations -/

section Parts
variable {keeps : Journal → Journal → Prop} {host : Host}

theorem quiet_set {f : State → State} (h : ∀ j, keeps j { j with state := f j.state }) :
    Quiet keeps Talk (set f) := quiet_put h

theorem quiet_now : Quiet keeps Talk now := quiet_request trivial

theorem quiet_uuid : Quiet keeps Talk uuid := quiet_request trivial

theorem quiet_elapsedWall : Quiet keeps Talk elapsedWall :=
  quiet_bind quiet_now fun _ => quiet_bind (quiet_get _) fun _ => quiet_pure _

theorem quiet_currentWorkspaceRevision : Quiet keeps Talk currentWorkspaceRevision :=
  quiet_bind (quiet_get _) fun _ => quiet_ite (quiet_pure _) (quiet_request trivial)

theorem quiet_putJson {value : Dict} : Quiet keeps Talk (putJson value) := by
  refine quiet_bind (quiet_request trivial) fun stored => ?_
  cases stored with
  | ok aid => exact quiet_pure aid
  | error e => exact quiet_raise e

theorem quiet_admitted : Quiet keeps Talk (admitted host) :=
  quiet_bind (quiet_get _) fun _ => quiet_bind quiet_require fun _ =>
    quiet_bind (quiet_get _) fun _ => quiet_bind quiet_require fun _ =>
      quiet_bind (quiet_get _) fun _ => quiet_bind quiet_elapsedWall fun _ => quiet_require

theorem quiet_event (hev : ∀ j es, keeps j { j with events := es }) {type : String} {payload : Dict} :
    Quiet keeps Talk (event type payload) :=
  quiet_bind quiet_now fun _ => quiet_put fun j => hev j _

theorem quiet_silent {α : Type} {p : Engine α} (h : Quiet keeps Talk p) : Quiet keeps Talk (silent p) :=
  quiet_bind h fun _ => quiet_pure _

theorem quiet_progress (hev : ∀ j es, keeps j { j with events := es })
    (hwindow : ∀ j w, keeps j { j with state := { j.state with progressWindow := w } })
    {current : ProgressRecord} : Quiet keeps Talk (progress current) := by
  refine quiet_bind (quiet_get _) fun window => quiet_bind (quiet_set fun j => hwindow j _) fun _ =>
    quiet_bind (quiet_event hev) fun _ => quiet_bind ?_ fun _ => quiet_pure _
  generalize classify window current = verdict
  obtain ⟨action, reason⟩ := verdict
  cases action with
  | none => exact quiet_pure _
  | some action => exact quiet_event hev

end Parts

/-! ### The calls and the receipts -/

structure Unmoved (j j' : Journal) : Prop where
  calls : j'.calls = j.calls
  cache : j'.state.receiptCache = j.state.receiptCache
  required : j.state.fullWorkspaceRevisionRequired → j'.state.fullWorkspaceRevisionRequired

theorem unmoved_refl (j : Journal) : Unmoved j j := ⟨rfl, rfl, id⟩

theorem unmoved_trans {j j' j'' : Journal} (h : Unmoved j j') (h' : Unmoved j' j'') : Unmoved j j'' :=
  ⟨h'.calls.trans h.calls, h'.cache.trans h.cache, fun hj => h'.required (h.required hj)⟩

theorem unmoved_of_others {j j' : Journal} (h : Others j j') : Unmoved j j' := by
  refine ⟨h.calls, h.field State.receiptCache fun _ _ => rfl, fun hj => ?_⟩
  rw [h.field State.fullWorkspaceRevisionRequired fun _ _ => rfl]
  exact hj

theorem unmoved_state {j : Journal} {s : State} (hcache : s.receiptCache = j.state.receiptCache)
    (hrequired : j.state.fullWorkspaceRevisionRequired → s.fullWorkspaceRevisionRequired) :
    Unmoved j { j with state := s } := ⟨rfl, hcache, hrequired⟩

section Unmoved
variable {host : Host}

theorem unmoved_events (j : Journal) (es : List RunEvent) : Unmoved j { j with events := es } :=
  ⟨rfl, rfl, id⟩

theorem calm_event {type : String} {payload : Dict} : Quiet Unmoved Talk (event type payload) :=
  quiet_event unmoved_events

theorem calm_set {f : State → State} (h : ∀ s, ((f s).receiptCache, (f s).fullWorkspaceRevisionRequired) =
    (s.receiptCache, s.fullWorkspaceRevisionRequired)) : Quiet Unmoved Talk (set f) := by
  refine quiet_set fun j => ?_
  obtain ⟨hcache, hrequired⟩ := Prod.mk.inj (h j.state)
  exact unmoved_state hcache fun hj => hrequired.trans hj

theorem calm_pause : Quiet Unmoved Talk pause :=
  quiet_bind (quiet_get _) fun _ => quiet_ite
    (quiet_bind quiet_now fun _ => quiet_bind (calm_set fun _ => rfl) fun _ =>
      quiet_bind quiet_elapsedWall fun _ => calm_event) (quiet_pure _)

theorem calm_resumeClock : Quiet Unmoved Talk resumeClock := by
  refine quiet_bind (quiet_get _) fun paused => ?_
  cases paused with
  | none => exact quiet_pure _
  | some t =>
    exact quiet_bind (quiet_get _) fun _ => quiet_bind quiet_now fun _ =>
      quiet_bind (calm_set fun _ => rfl) fun _ => quiet_bind (calm_set fun _ => rfl) fun _ =>
        quiet_bind quiet_elapsedWall fun _ => calm_event

theorem calm_started {request : String} {mode : Dict} :
    Quiet Unmoved Talk (started host request mode) :=
  quiet_bind (calm_set fun _ => rfl) fun _ => quiet_bind quiet_now fun _ =>
    quiet_bind (calm_set fun _ => rfl) fun _ => quiet_bind (calm_set fun _ => rfl) fun _ =>
      quiet_bind (calm_set fun _ => rfl) fun _ => quiet_bind (calm_set fun _ => rfl) fun _ =>
        quiet_bind (calm_set fun _ => rfl) fun _ => calm_event

theorem calm_beginIncremental {request : String} :
    Quiet Unmoved Talk (beginIncremental host request) :=
  quiet_bind (quiet_get _) fun _ => quiet_ite calm_started quiet_require

theorem calm_finish {status : RunStatus} {receipts : List Dict} {unresolved : List String} :
    Quiet Unmoved Talk (finish status receipts unresolved) :=
  quiet_bind (quiet_get _) fun _ => quiet_bind (quiet_get _) fun _ =>
    quiet_bind (calm_set fun _ => rfl) fun _ => quiet_bind calm_event fun _ => quiet_pure _

theorem calm_pauseForInput {status : RunStatus} : Quiet Unmoved Talk (pauseForInput status) :=
  quiet_bind (quiet_get _) fun _ => quiet_ite
    (quiet_bind quiet_now fun _ => quiet_bind (calm_set fun _ => rfl) fun _ =>
      quiet_bind quiet_elapsedWall fun _ => calm_event) (quiet_pure _)

theorem calm_finishIncremental {status : RunStatus} {answer : String} {unresolved : List String} :
    Quiet Unmoved Talk (finishIncremental status answer unresolved) :=
  quiet_bind (quiet_request trivial) fun _ => quiet_bind quiet_currentWorkspaceRevision fun _ =>
    quiet_bind (quiet_get _) fun _ => quiet_bind (quiet_request trivial) fun _ =>
      quiet_bind calm_pauseForInput fun _ => quiet_bind (quiet_get _) fun _ =>
        quiet_bind (calm_set fun _ => rfl) fun _ => quiet_bind calm_event fun _ => quiet_pure _

theorem calm_checkpoint {messages : List Json} {state : Dict} :
    Quiet Unmoved Talk (checkpoint host messages state) :=
  quiet_bind (calm_set fun _ => rfl) fun _ => quiet_bind (calm_set fun _ => rfl) fun _ =>
    quiet_bind quiet_currentWorkspaceRevision fun _ => quiet_bind (quiet_get _) fun _ =>
      quiet_bind quiet_putJson fun _ => quiet_bind (calm_set fun _ => rfl) fun _ => calm_event

theorem calm_prepareResume : Quiet Unmoved Talk (prepareResume host) := by
  refine quiet_bind (quiet_get _) fun j => quiet_bind quiet_require fun _ =>
    quiet_bind (quiet_get _) fun _ => quiet_bind quiet_require fun _ =>
      quiet_bind (quiet_get _) fun _ => quiet_bind quiet_require fun _ =>
        quiet_bind quiet_require fun _ => quiet_bind (quiet_request trivial) fun processes => ?_
  cases List.find? (fun p => decide ¬ p.done) (processes : List Process) with
  | some p => exact quiet_raise _
  | none => exact quiet_ite calm_resumeClock (quiet_bind calm_resumeClock fun _ => calm_checkpoint)

theorem calm_reserveModelCall {tokens dollars : ℤ} :
    Quiet Unmoved Talk (reserveModelCall host tokens dollars) :=
  quiet_bind (quiet_get _) fun _ => quiet_bind (quiet_get _) fun _ => quiet_bind quiet_admitted fun _ =>
    quiet_bind quiet_require fun _ => quiet_bind quiet_require fun _ => quiet_bind quiet_require fun _ =>
      quiet_bind quiet_uuid fun _ => quiet_bind (calm_set fun _ => rfl) fun _ =>
        quiet_bind (quiet_get _) fun _ => quiet_bind (calm_set fun _ => rfl) fun _ =>
          quiet_bind calm_event fun _ => quiet_pure _

theorem calm_reserveChildBudget {allocation : Budget} {depth maxDepth maxFanout : ℕ} :
    Quiet Unmoved Talk (reserveChildBudget host allocation depth maxDepth maxFanout) :=
  quiet_bind (quiet_get _) fun _ => quiet_bind quiet_require fun _ => quiet_bind (quiet_get _) fun _ =>
    quiet_bind quiet_require fun _ => quiet_bind quiet_require fun _ => quiet_bind (quiet_get _) fun _ =>
      quiet_bind (quiet_get _) fun _ => quiet_bind (quiet_get _) fun _ =>
        quiet_bind quiet_require fun _ => quiet_bind quiet_require fun _ =>
          quiet_bind quiet_require fun _ => quiet_bind quiet_require fun _ =>
            quiet_bind quiet_require fun _ => quiet_bind quiet_uuid fun _ =>
              quiet_bind (calm_set fun _ => rfl) fun _ => quiet_bind calm_event fun _ => quiet_pure _

theorem calm_reconcileChildBudget {id : String} {usage : Usage} :
    Quiet Unmoved Talk (reconcileChildBudget id usage) := by
  refine quiet_bind (quiet_get _) fun reservations => ?_
  cases lookup Prod.fst id reservations with
  | none => exact quiet_raise _
  | some item =>
    exact quiet_bind quiet_require fun _ => quiet_bind quiet_require fun _ =>
      quiet_bind quiet_require fun _ => quiet_bind quiet_require fun _ => quiet_bind quiet_require fun _ =>
        quiet_bind (quiet_get _) fun _ => quiet_bind (calm_set fun _ => rfl) fun _ =>
          quiet_bind (calm_set fun _ => rfl) fun _ => calm_event

theorem calm_reserveModelRetry {id : String} : Quiet Unmoved Talk (reserveModelRetry host id) := by
  refine quiet_bind (quiet_get _) fun reservations => ?_
  cases lookup Prod.fst id reservations with
  | none => exact quiet_raise _
  | some item =>
    exact quiet_bind (quiet_get _) fun _ => quiet_bind (quiet_get _) fun _ =>
      quiet_bind quiet_admitted fun _ => quiet_bind quiet_require fun _ =>
        quiet_bind quiet_require fun _ => quiet_bind quiet_require fun _ =>
          quiet_bind (calm_set fun _ => rfl) fun _ => quiet_bind (calm_set fun _ => rfl) fun _ =>
            calm_event

theorem calm_reconcileModelCall {id status : String} {tokens : Option ℤ} {requestId : Option String}
    {retries : ℕ} : Quiet Unmoved Talk (reconcileModelCall id tokens requestId status retries) := by
  refine quiet_bind (quiet_get _) fun reservations => quiet_bind ?_ fun _ => calm_event
  cases lookup Prod.fst id reservations with
  | none => exact quiet_pure _
  | some item =>
    cases tokens with
    | none => exact quiet_pure _
    | some actual => exact quiet_bind (quiet_get _) fun _ => calm_set fun _ => rfl

/-- The operation stores no call and executes none. -/
def Op.Calm : Op → Prop
  | .run .. | .storePlan .. | .continueRun _ | .executeIncremental _ => False
  | _ => True

/-- **An operation of the session** that stores no call and executes none. -/
theorem calm_program {op : Op} (h : Op.Calm op) : Quiet Unmoved Talk (program (host, op)) := by
  cases op with
  | run => exact absurd h not_false
  | storePlan => exact absurd h not_false
  | continueRun => exact absurd h not_false
  | executeIncremental => exact absurd h not_false
  | beginIncremental => exact calm_beginIncremental
  | finishIncremental => exact quiet_silent calm_finishIncremental
  | prepareResume => exact calm_prepareResume
  | checkpoint => exact calm_checkpoint
  | pause => exact calm_pause
  | resumeClock => exact calm_resumeClock
  | reserveModelCall => exact quiet_silent calm_reserveModelCall
  | reserveChildBudget => exact quiet_silent calm_reserveChildBudget
  | reconcileChildBudget => exact calm_reconcileChildBudget
  | reserveModelRetry => exact calm_reserveModelRetry
  | reconcileModelCall => exact calm_reconcileModelCall
  | setToolProfile profile =>
    exact calm_set (f := fun s => { s with toolProfile := some profile }) fun _ => rfl

end Unmoved

end Smara.Harness.Frames
