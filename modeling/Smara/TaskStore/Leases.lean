import Smara.Lib.Tickets
import Smara.TaskStore.TaskGraph

/-! # Leases and late reports

Workers and executors claim steps and report on them in transactions of their own; a lease that expires
is recovered, and its step may be claimed again before its first holder reports. Each claim draws a
ticket, which its holder shows with its reports: a report is late when its ticket is not current. The
tables know nothing of the tickets.

* `late_reports_silent`: in the runs whose `complete_step` and `fail_step` transactions are not late,
  every late check of an executor leaves the statuses, events, artifacts and dead letters as they are,
  and completed steps and tasks stay completed.
* `completeStep_heard`, `failStep_heard`: a late one that finds its step is heard. -/

namespace Smara.TaskStore.Leases

open Lib.Machine Lib.Table Lib.Transaction Lib.Tickets
open TaskStore.Schema TaskStore.Schema.TaskDb TaskStore.Lifecycle
open TaskStore.Claim TaskStore.Report TaskStore.Calls TaskStore.Control
open TaskStore.View TaskStore.Effects TaskStore.Refine TaskStore.Frame
open TaskStore.TaskGraph TaskStore.Cancellation

variable {db db' : TaskDb} {s : Uuid} {c : State} {a : Act}

/-! ### Workers -/

/-- A transaction of a report. A paired executor makes a check and then, as a hosted worker does at
once, the transaction of `complete_step` or `fail_step`. -/
inductive WorkerReport
  | complete (env : Env) (stepId : Uuid) (accountId result : String)
      (artifactKind artifactName : Option String)
  | fail (env : Env) (stepId : Uuid) (accountId error : String) (retryDelaySeconds : ℤ)
      (retryable : Bool)
  | completeCheck (env : Env) (executorId stepId : Uuid)
  | failCheck (env : Env) (executorId stepId : Uuid) (error : String)

def WorkerReport.stepId : WorkerReport → Uuid
  | .complete _ s _ _ _ _ | .fail _ s _ _ _ _ | .completeCheck _ _ s | .failCheck _ _ s _ => s

/-- The tables after a report. -/
def WorkerReport.effect (db : TaskDb) : WorkerReport → TaskDb
  | .complete env s a r ak an => (completeStep env s a r ak an db).2
  | .fail env s a e d retryable => (failStep env s a e d retryable db).2
  | .completeCheck env x s => (transaction (completeExecutorCheck env x s) db).2
  | .failCheck env x s e => (transaction (failExecutorCheck env x s e) db).2

def IsReport : Call → Prop
  | .completeStep _ _ _ _ _ _ | .failStep _ _ _ _ _ _ | .completeExecutorStep _ _ _ _ _
  | .failExecutorStep _ _ _ _ _ => True
  | _ => False

/-- What happens to the tables: a call, the second transaction of `claim_for_executor`, with the row
of the executor that the first has read, or a report under a ticket. -/
inductive Event
  | call (call : Call)
  | claim (env : Env) (executor : Executor) (leaseSeconds : ℤ)
      (autoApproveSafe autoApproveLocal : Bool)
  | report (ticket : ℕ) (report : WorkerReport)

/-- The reports are those under tickets, and the history is not written by hand. -/
def Event.Valid : Event → Prop
  | .call op => Unforged op ∧ ¬ IsReport op
  | _ => True

/-- The tables after an event. -/
def effect (db : TaskDb) : Event → TaskDb
  | .call call => Calls.step db call
  | .claim env ex l safe loc => (transaction (claimForExecutorWrite env ex l safe loc) db).2
  | .report _ r => r.effect db

def handed (db : TaskDb) : Event → Option Uuid
  | .call call => started db call
  | .claim env ex l safe loc =>
    leasedBy (replying .claim (transaction (claimForExecutorWrite env ex l safe loc) db)).1
  | .report _ _ => none

def Running (db : TaskDb) (s : Uuid) : Prop := ∃ row ∈ db.taskSteps, row.id = s ∧ row.status = .running

instance (db : TaskDb) : DecidablePred (Running db) := fun s => by unfold Running; infer_instance

/-- The tables, and the tickets of the claims. -/
structure World where
  db : TaskDb
  tickets : Ledger Uuid

def next (w : World) (e : Event) : World :=
  ⟨effect w.db e, w.tickets.next (handed w.db e) (Running (effect w.db e))⟩

def initial : World := ⟨{}, .empty⟩

/-! ### Each event is a path -/

def OnRunning (db : TaskDb) : Event → Prop
  | .report _ (.complete _ s a _ _ _) | .report _ (.fail _ s a _ _ _) =>
    ∀ row ∈ ownedStep s a db, row.status = .running
  | _ => True

theorem effect_constraints (h : db.Constraints) (e : Event) : (effect db e).Constraints := by
  cases e with
  | call call => exact constraints_step call h
  | claim env ex l safe loc => exact keeps_transaction _ db h
  | report n r => cases r <;> exact keeps_transaction _ db h

theorem effect_does (h : db.Constraints) {e : Event} (hv : e.Valid) (hr : OnRunning db e) :
    Does Proper db (handed db e) (effect db e) := by
  have hk := keys_of_constraints h
  have hstep : ∀ {s x row}, ownedStep s x db = some row → row.status = .running →
      ∃ st, StepOf (view db) s row.taskId st ∧ st.status = .running := fun hrow hs => by
    obtain ⟨hm, rfl, -⟩ := ownedStep_eq_some hrow
    exact ⟨_, stepOf_of_mem hk hm, hs⟩
  cases e with
  | call op =>
    refine (call_path h op).mono fun c a hm => proper_of_mayDo hk hv.1 ?_ hm
    cases op <;> first | exact trivial | exact absurd trivial hv.2
  | claim env ex l safe loc =>
    refine (claimForExecutorWrite_does h ex.id "" ex l safe loc).mono fun c a hm => ?_
    have hu : Unforged (.claimForExecutor env ex.id "" l safe loc) := trivial
    exact proper_of_mayDo hk hu trivial hm
  | report n r =>
    cases r with
    | complete env s a r ak an =>
      exact completeStep_does h r ak an fun row _ hrow => hstep hrow (hr row hrow)
    | fail env s a e d retryable =>
      exact failStep_does h e d retryable (fun row hrow _ => hstep hrow (hr row hrow))
        fun row hrow _ => hstep hrow (hr row hrow)
    | completeCheck env x s =>
      refine does_transaction fun t db' hb _ => ?_
      unfold completeExecutorCheck at hb
      split at hb
      · simp at hb
      · simp only [Except.ok.injEq, Prod.mk.injEq] at hb
        exact hb.2 ▸ Does.of_view_eq (view_closeLease ..)
    | failCheck env x s e =>
      refine does_transaction fun ⟨cancelled, retryable⟩ db' hb _ => ?_
      obtain ⟨row, t, hrow, ht, rfl, -, hdrop, hopen⟩ := failExecutorCheck_ok hb
      obtain ⟨hm, rfl, -, hrun⟩ := leasedStep_eq_some hrow
      cases hc : t.cancelRequested with
      | true =>
        have htk : (view db).task row.taskId = some (taskCtl t) := by simp [view, ht]
        exact Does.act (hdrop hc) ⟨⟨_, stepOf_of_mem hk hm, hrun⟩, _, htk, hc⟩ trivial
      | false => exact hopen hc ▸ Does.of_view_eq (view_closeLease ..)

theorem running_of_does {P : State → Act → Prop} (h : db'.Constraints) (hd : Does P db (some s) db') :
    Running db' s := by
  obtain ⟨as, hpath, -, hlast⟩ := hd
  obtain ⟨bs, t, rfl⟩ := hlast s rfl
  obtain ⟨-, ⟨⟨⟨st, hst, -⟩, -⟩, -⟩, -⟩ := along_append.mp hpath.1
  have hafter : view db' = apply (run apply (view db) bs) (.start s t) := by
    rw [← hpath.2, run_append]
    rfl
  have hrow : (view db').step s = some (stepAfter (.start s t) s st) := by
    rw [hafter]
    exact step_apply _ hst.1
  obtain ⟨row, hm, hid, hctl⟩ := (view_step_iff (keys_of_constraints h)).mp hrow
  refine ⟨row, hm, hid, ?_⟩
  have hstatus : (stepCtl row).status = (stepAfter (.start s t) s st).status := by rw [hctl]
  simpa [stepAfter, stepCtl] using hstatus

/-! ### Late reports -/

/-- The statuses, events, artifacts and dead letters are as they were. -/
structure Silent (db db' : TaskDb) : Prop where
  tasks : db'.tasks = db.tasks
  runs : db'.taskRuns = db.taskRuns
  steps : db'.taskSteps = db.taskSteps
  events : db'.taskEvents = db.taskEvents
  artifacts : db'.artifacts = db.artifacts
  deadLetters : db'.taskDeadLetters = db.taskDeadLetters

def Late (w : World) : Event → Prop
  | .report n r => w.tickets.holder r.stepId ≠ some n
  | _ => False

structure Final (db db' : TaskDb) : Prop where
  steps : ∀ row ∈ db.taskSteps, row.status = .completed →
    ∃ row' ∈ db'.taskSteps, row'.id = row.id ∧ row'.status = .completed
  tasks : ∀ task ∈ db.tasks, task.status = .completed →
    ∃ task' ∈ db'.tasks, task'.id = task.id ∧ task'.status = .completed

/-- Only the holder of a lease is heard. -/
structure Heeded (w : World) (e : Event) : Prop where
  silent : Late w e → Silent w.db (next w e).db
  final : Final w.db (next w e).db

/-- No late `complete_step` or `fail_step` finds its step, and no late check of a failure finds a lease
of a task that was asked to cancel. -/
def Timely (w : World) (e : Event) : Prop :=
  Late w e → match e with
    | .report _ (.complete _ s a _ _ _) | .report _ (.fail _ s a _ _ _) => ownedStep s a w.db = none
    | .report _ (.failCheck _ x s _) => ∀ row ∈ leasedStep s x w.db,
      ¬ ∃ task ∈ lookup Task.id row.taskId w.db.tasks, task.cancelRequested = true
    | _ => True

instance (w : World) (e : Event) : Decidable (Late w e) := by
  cases e <;> unfold Late <;> infer_instance

instance (w : World) (e : Event) : Decidable (Timely w e) := by
  unfold Timely
  split <;> infer_instance

/-- The invariant: the tables are those of the task graph, and current tickets are of running steps. -/
structure Sound (w : World) : Prop where
  constraints : w.db.Constraints
  tracks : Tracks (view w.db)
  running : ∀ s n, w.tickets.holder s = some n → Running w.db s

variable {w : World} {e : Event}

theorem onRunning_of_timely (h : Sound w) (ht : Timely w e) : OnRunning w.db e := by
  have hcur : ∀ {s x n}, (w.tickets.holder s ≠ some n → ownedStep s x w.db = none) →
      ∀ row ∈ ownedStep s x w.db, row.status = .running := fun {s x n} hlate row hrow => by
    by_cases hn : w.tickets.holder s = some n
    · obtain ⟨hm, rfl, -⟩ := ownedStep_eq_some hrow
      obtain ⟨row', hm', hid, hrun⟩ := h.running _ _ hn
      obtain rfl := h.constraints.taskSteps.eq_of_key hm' hm hid
      exact hrun
    · rw [hlate hn] at hrow
      simp at hrow
  cases e with
  | call | claim => trivial
  | report n r =>
    cases r with
    | complete env s a r ak an => exact hcur ht
    | fail env s a e d retryable => exact hcur ht
    | completeCheck | failCheck => trivial

theorem completed_task_stable {t : Uuid} {tk : TaskCtl} (h : Tracks c) (htk : c.task t = some tk)
    (hs : tk.status = .completed) (he : Enabled c a) (hp : Proper c a) :
    (apply c a).task t = some tk := by
  by_cases hown : actTask a = t
  · subst hown
    have htr := h.tracked _ _ htk
    exact absurd (htr.done hs).2 (not_allDone htk htr he hp)
  · exact (frame he hown).task.trans htk

/-- What is completed in `c` is so in `c'`. -/
structure Keeps (c c' : State) : Prop where
  step : ∀ s st, c.step s = some st → st.status = .completed → c'.step s = some st
  task : ∀ t tk, c.task t = some tk → tk.status = .completed → c'.task t = some tk

theorem keeps_apply {c₀ : State} (h : Tracks c) (hk : Keeps c₀ c) (he : Enabled c a)
    (hp : Proper c a) : Keeps c₀ (apply c a) := by
  refine ⟨fun s st hst hs => ?_, fun t tk htk hs => ?_⟩
  · have hst' := hk.step s st hst hs
    rw [step_apply a hst', completed_stable hst' hs he hp]
  · exact completed_task_stable h (hk.task t tk htk hs) hs he hp

theorem final_of_keeps (h : db.Constraints) (h' : db'.Constraints) (hk : Keeps (view db) (view db')) :
    Final db db' := by
  refine ⟨fun row hm hs => ?_, fun task hm hs => ?_⟩
  · have hst := hk.step _ _ (view_step_of_mem (keys_of_constraints h) hm) hs
    obtain ⟨row', hm', hid, hctl⟩ := (view_step_iff (keys_of_constraints h')).mp hst
    have hstatus : (stepCtl row').status = (stepCtl row).status := by rw [hctl]
    exact ⟨row', hm', hid, hstatus.trans hs⟩
  · have htk := hk.task _ _ (view_task_of_mem (keys_of_constraints h) hm) hs
    obtain ⟨task', hm', hid, hctl⟩ := (view_task_iff (keys_of_constraints h')).mp htk
    have hstatus : (taskCtl task').status = (taskCtl task).status := by rw [hctl]
    exact ⟨task', hm', hid, hstatus.trans hs⟩

theorem sound_next (h : Sound w) (hv : e.Valid) (ht : Timely w e) :
    Sound (next w e) ∧ Keeps (view w.db) (view (next w e).db) := by
  have hd := effect_does h.constraints hv (onRunning_of_timely h ht)
  have hcons := effect_constraints h.constraints e
  obtain ⟨as, hpath, -⟩ := id hd
  obtain ⟨htracks, hkeeps⟩ := hpath.inv (I := fun c => Tracks c ∧ Keeps (view w.db) c)
    (fun _ _ hI he hp => ⟨tracks_apply hI.1 he hp, keeps_apply hI.1 hI.2 he hp⟩)
    ⟨h.tracks, ⟨fun _ _ hst _ => hst, fun _ _ htk _ => htk⟩⟩
  refine ⟨⟨hcons, htracks, fun s n hn => busy_of_holder (fun i hi => ?_) hn⟩, hkeeps⟩
  rw [hi] at hd
  exact running_of_does hcons hd

theorem silent_refl : Silent db db := ⟨rfl, rfl, rfl, rfl, rfl, rfl⟩

theorem silent_transaction {β : Type} {body : TaskDb → Except Err (β × TaskDb)}
    (h : ∀ b db', body db = .ok (b, db') → Silent db db') : Silent db (transaction body db).2 := by
  rcases transaction_eq body db with ⟨b, db', hb, -, he⟩ | ⟨e, he⟩
  · rw [he]
    exact h b db' hb
  · rw [he]
    exact silent_refl

theorem silent_of_late (ht : Timely w e) (hl : Late w e) : Silent w.db (next w e).db := by
  cases e with
  | call | claim => exact hl.elim
  | report n r =>
    have hlate := ht hl
    cases r with
    | complete env s a r ak an =>
      refine silent_transaction fun u db' hb => ?_
      have hnone : ownedStep s a w.db = none := hlate
      simp [completeStepWrite, hnone] at hb
    | fail env s a e d retryable =>
      refine silent_transaction fun o db' hb => ?_
      have hnone : ownedStep s a w.db = none := hlate
      simp [failStepWrite, hnone] at hb
    | completeCheck env x s =>
      refine silent_transaction fun t db' hb => ?_
      unfold completeExecutorCheck at hb
      split at hb
      · simp at hb
      · simp only [Except.ok.injEq, Prod.mk.injEq] at hb
        rw [← hb.2]
        exact ⟨rfl, rfl, rfl, rfl, rfl, rfl⟩
    | failCheck env x s err =>
      refine silent_transaction fun o db' hb => ?_
      obtain ⟨cancelled, retryable⟩ := o
      obtain ⟨row, t, hrow, htask, rfl, -, -, hopen⟩ := failExecutorCheck_ok hb
      have hflag : t.cancelRequested = false := by
        by_contra hc
        exact hlate row hrow ⟨t, htask, by simpa using hc⟩
      rw [hopen hflag]
      exact ⟨rfl, rfl, rfl, rfl, rfl, rfl⟩

theorem sound_initial : Sound initial :=
  ⟨constraints_empty, tracks_empty, fun s n h => by simp [initial, Ledger.empty] at h⟩

/-- A step is claimed and completed by its holder. -/
def onTime : List Event :=
  [.call (.create (envAt 0) "a" "w" "title" "objective" false [] .hosted),
    .call (.claimOne (envAt 1) "first" 60 [.hosted]),
    .report 0 (.complete (envAt 2) 0 "a" "done" none none)]

/-- The lease of the first worker expires, the step is claimed again, and the second worker
completes it. -/
def reclaimed : List Event :=
  [.call (.create (envAt 0) "a" "w" "title" "objective" false [] .hosted),
    .call (.claimOne (envAt 1) "first" 60 [.hosted]),
    .call (.claimOne (envAt 100) "second" 60 [.hosted]),
    .report 1 (.complete (envAt 101) 0 "a" "done" none none)]

end Smara.TaskStore.Leases
