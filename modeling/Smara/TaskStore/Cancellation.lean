import Smara.TaskStore.Frame
import Smara.TaskStore.Refine

/-! # Cancellation

After `cancel` the task is `cancelling` until it is `cancelled`, and none of its steps is started,
as long as nobody retries it and `fail_step` does not report one of its steps: alone among the
reports, `fail_step` does not look at `cancel_requested` (`failStep_reopens`).

The invariant is `Halted`: cancellation was requested, the task is `cancelling` or `cancelled`, and it
has no queued step. -/

namespace Smara.TaskStore.Cancellation

open Lib.Machine Lib.Table Lib.Transaction TaskStore.Schema TaskStore.Schema.TaskDb
open TaskStore.Lifecycle TaskStore.Claim TaskStore.Report TaskStore.Calls
open TaskStore.Control TaskStore.View TaskStore.Effects TaskStore.Refine
open TaskStore.Frame

variable {db : TaskDb} {t : Uuid} {c : State}

/-! ### The invariant -/

/-- The task is halted; if `final`, it is `cancelled`. -/
def Halted (t : Uuid) (final : Bool) (c : State) : Prop :=
  (∃ tk, c.task t = some tk ∧ tk.cancelRequested = true ∧
    (tk.status = .cancelled ∨ (final = false ∧ tk.status = .cancelling))) ∧
  ∀ s st, StepOf c s t st → st.status ≠ .queued

/-- The acts that could bring a halted task back: its retry, and the failure of one of its steps. -/
def Reopens (t : Uuid) : Act → Prop
  | .retry t' _ | .failRetry _ t' | .failFinal _ t' => t' = t
  | _ => False

theorem Halted.of_same {final : Bool} {c' : State} (h : Halted t final c) (hs : Same t c c') :
    Halted t final c' := by
  obtain ⟨⟨tk, htk, hf⟩, hq⟩ := h
  exact ⟨⟨tk, hs.task.trans htk, hf⟩, fun s st hst => hq s st ((hs.step s st).mp hst)⟩

theorem acts_of_halted {final : Bool} {a : Act} (h : Halted (actTask a) final c) (he : Enabled c a)
    (ha : ¬ Reopens (actTask a) a) :
    (∃ t idle, a = .cancel t idle ∧ final = false) ∨ (∃ s t, a = .drop s t) ∨
      (∃ s t, a = .complete s t .cancelled) ∨ ∃ t m, a = .record t m := by
  obtain ⟨⟨tk, htk, hflag, hstatus⟩, -⟩ := h
  have hsame : ∀ {tk'}, c.task (actTask a) = some tk' → tk' = tk :=
    fun h => Option.some.inj (h.symm.trans htk)
  have hother : tk.status ≠ .queued ∧ tk.status ≠ .waitingApproval ∧ tk.status ≠ .running := by
    rcases hstatus with hs | ⟨-, hs⟩ <;> simp [hs]
  cases a with
  | insert t => exact absurd (htk.symm.trans he.1) (by simp)
  | gate t =>
    obtain ⟨tk', htk', -, hs⟩ := he
    obtain rfl := hsame htk'
    exact absurd hs hother.1
  | approve t | deny t =>
    obtain ⟨tk', htk', -, hs⟩ := he
    obtain rfl := hsame htk'
    exact (hs.elim hother.1 hother.2.1).elim
  | cancel t idle =>
    obtain ⟨⟨tk', htk', hnt⟩, -⟩ := he
    obtain rfl := hsame htk'
    exact Or.inl ⟨t, idle, rfl, hstatus.elim (fun hs => absurd (Or.inr (Or.inr hs)) hnt) And.left⟩
  | retry | failRetry | failFinal => exact absurd rfl ha
  | requeue s t => exact absurd (he.2 tk htk) (by simp [hflag])
  | drop s t => exact Or.inr (Or.inl ⟨s, t, rfl⟩)
  | expire s t =>
    obtain ⟨-, tk', htk', hf⟩ := he
    obtain rfl := hsame htk'
    simp [hflag] at hf
  | start s t =>
    obtain ⟨-, ⟨tk', htk', hs, -⟩, -⟩ := he
    obtain rfl := hsame htk'
    exact (hs.elim hother.1 hother.2.2).elim
  | complete s t ending =>
    obtain ⟨st, tk', -, htk', hend⟩ := he
    obtain rfl := hsame htk'
    cases ending with
    | cancelled => exact Or.inr (Or.inr (Or.inl ⟨s, t, rfl⟩))
    | last => exact absurd hend.1 (by simp [hflag])
    | pending => exact absurd hend.1 (by simp [hflag])
  | record t m => exact Or.inr (Or.inr (Or.inr ⟨t, m, rfl⟩))

theorem halted_apply {final : Bool} {a : Act} (h : Halted t final c) (he : Enabled c a)
    (ha : ¬ Reopens t a) : Halted t final (apply c a) := by
  by_cases ht : actTask a = t
  swap
  · exact h.of_same (frame he ht)
  subst ht
  have hact := acts_of_halted h he ha
  obtain ⟨⟨tk, htk, hflag, hstatus⟩, hq⟩ := h
  refine ⟨⟨taskAfter a tk, task_apply a htk, ?_⟩, fun s st hst => ?_⟩
  · rcases hact with ⟨t, idle, rfl, hf⟩ | ⟨s, t, rfl⟩ | ⟨s, t, rfl⟩ | ⟨t, m, rfl⟩
    · cases idle <;> simp [taskAfter, hf]
    · exact ⟨hflag, Or.inl rfl⟩
    · exact ⟨hflag, Or.inl rfl⟩
    · exact ⟨hflag, hstatus⟩
  · rcases of_step_apply hst.1 with ⟨st₀, hst₀, rfl⟩ | ⟨-, t, r, g, ss, ds, rfl, -⟩
    · intro hqueued
      rcases queued_of_stepAfter hqueued with he' | ⟨t, g, rfl, -⟩ | ⟨t, rfl | rfl⟩
      · rw [he'] at hqueued hst
        exact hq s st₀ ⟨hst₀, hst.2⟩ hqueued
      · exact ha rfl
      · simp at hact
      · exact ha rfl
    · exact absurd (htk.symm.trans he.1) (by simp)

/-! ### Runs -/

def taskStatus (t : Uuid) (db : TaskDb) : Option TaskStatus :=
  (lookup Task.id t db.tasks).map Task.status

/-- The call leaves the cancellation of `t` standing: the task is `cancelled`, or `cancelling` as it
was before, and none of its steps is moved to `running`. -/
def Stands (t : Uuid) (db : TaskDb) (call : Call) : Prop :=
  (taskStatus t (step db call) = some .cancelled ∨
    (taskStatus t db = some .cancelling ∧ taskStatus t (step db call) = some .cancelling)) ∧
  ∀ s ∈ db.taskSteps, s.taskId = t → started db call ≠ some s.id

instance (t : Uuid) (db : TaskDb) (call : Call) : Decidable (Stands t db call) := by
  unfold Stands; infer_instance

/-- The call is a `fail_step` that finds a step of the task. -/
def FailsStepOf (t : Uuid) (db : TaskDb) : Call → Prop
  | .failStep _ s a _ _ _ => ∃ row ∈ ownedStep s a db, row.taskId = t
  | _ => False

theorem taskStatus_eq : taskStatus t db = ((view db).task t).map TaskCtl.status := by
  simp [taskStatus, view, Option.map_map, Function.comp_def, taskCtl]

theorem not_reopens {final : Bool} {call : Call} {a : Act} (hc : Halted t final c)
    (hretry : ∀ env a, call ≠ .retryTask env t a) (hfail : ¬ FailsStepOf t db call)
    (hm : MayDo db call c a) : ¬ Reopens t a := by
  obtain ⟨⟨tk, htk, hflag, -⟩, -⟩ := hc
  intro ha
  cases hm with
  | retry => exact hretry _ _ (by rw [show _ = t from ha])
  | failRetry h _ => exact hfail ⟨_, h, ha⟩
  | failFinal h _ => exact hfail ⟨_, h, ha⟩
  | failRetryDesktop _ _ _ h =>
    obtain ⟨tk', htk', hf⟩ := h
    rw [show _ = t from ha, htk] at htk'
    obtain rfl := Option.some.inj htk'
    simp [hflag] at hf
  | failFinalDesktop _ h =>
    obtain ⟨tk', htk', hf⟩ := h
    rw [show _ = t from ha, htk] at htk'
    obtain rfl := Option.some.inj htk'
    simp [hflag] at hf
  | _ => exact ha

theorem halted_step {final : Bool} {call : Call} (h : db.Constraints) (hv : Halted t final (view db))
    (hretry : ∀ env a, call ≠ .retryTask env t a) (hfail : ¬ FailsStepOf t db call) :
    Halted t final (view (step db call)) :=
  inv_step h (fun _ _ hc he hm => halted_apply hc he (not_reopens hc hretry hfail hm)) hv

theorem stands_of_halted {call : Call} (h : db.Constraints) (hv : Halted t false (view db))
    (hretry : ∀ env a, call ≠ .retryTask env t a) (hfail : ¬ FailsStepOf t db call) :
    Stands t db call := by
  refine ⟨?_, fun s hs hst hstart => ?_⟩
  · obtain ⟨⟨tk, htk, hf, hstatus⟩, hq⟩ := hv
    rcases hstatus with hstatus | ⟨-, hstatus⟩
    · have hv : Halted t true (view db) := ⟨⟨tk, htk, hf, Or.inl hstatus⟩, hq⟩
      obtain ⟨⟨tk', htk', -, hs'⟩, -⟩ := halted_step h hv hretry hfail
      exact Or.inl (by rw [taskStatus_eq, htk']; simpa using hs')
    · have hv : Halted t false (view db) := ⟨⟨tk, htk, hf, Or.inr ⟨rfl, hstatus⟩⟩, hq⟩
      obtain ⟨⟨tk', htk', -, hs'⟩, -⟩ := halted_step h hv hretry hfail
      rw [taskStatus_eq, taskStatus_eq, htk', htk]
      simpa [hstatus] using hs'
  · -- a step that starts is queued in the state in which it does, and no step of `t` is
    obtain ⟨c, t', ⟨hc, st, hst'⟩, ⟨⟨st', hst'', hqueued⟩, -⟩, -, -⟩ :=
      started_spec (I := fun c => Halted t false c ∧ ∃ st, StepOf c s.id t st) h
        (fun _ a hc he hm => ⟨halted_apply hc.1 he (not_reopens hc.1 hretry hfail hm),
          (stepOf_kept a hc.2.choose_spec).imp fun _ => And.left⟩)
        ⟨hv, _, hst ▸ stepOf_of_mem (keys_of_constraints h) hs⟩ hstart
    obtain rfl : st = st' := by simpa [hst'.1] using hst''.1
    exact hc.2 _ _ hst' hqueued

theorem halted_of_cancel {db₀ : TaskDb} (h : db₀.Constraints) {env : Env} {a : String} {r : Reply}
    (hopen : ∀ task ∈ db₀.tasks, task.id = t → ¬ Terminal task.status)
    (hok : exec db₀ (.cancel env t a) = (.ok r, db)) : Halted t false (view db) := by
  obtain ⟨task', hcancel, -⟩ := replying_ok hok
  obtain ⟨task, db', hread, hrest⟩ := andThen_ok hcancel
  obtain ⟨hget, rfl⟩ := query_ok hread
  obtain ⟨ht, rfl, -⟩ := get_eq_ok hget
  rw [if_neg (hopen task ht rfl)] at hrest
  obtain ⟨u, db'', hw, hlast⟩ := andThen_ok hrest
  obtain ⟨-, rfl⟩ := query_ok hlast
  have hk := keys_of_constraints h
  obtain ⟨idle, hv, -⟩ := view_cancelWrite hk (transaction_ok hw).1
  rw [hv]
  refine ⟨⟨{ taskCtl task with
      status := if idle then .cancelled else .cancelling, cancelRequested := true },
    by simp [Control.apply, view_task_of_mem hk ht], rfl, by cases idle <;> simp⟩, ?_⟩
  rintro s _ ⟨hs, hst⟩ hq
  obtain ⟨x, -, rfl⟩ := Option.map_eq_some_iff.mp hs
  dsimp only at hst hq
  split_ifs at hst hq with hx
  exact hx ⟨hst, hq⟩

/-- **Cancellation is final**, in every run in which the task is not retried and no `fail_step` finds
a step of it. -/
theorem cancellation_final {db₀ : TaskDb} (hr : Reachable step {} db₀) {env : Env} {a : String}
    {r : Reply} (hopen : ∀ task ∈ db₀.tasks, task.id = t → ¬ Terminal task.status)
    (hok : exec db₀ (.cancel env t a) = (.ok r, db)) {calls : List Call}
    (hretry : ∀ env a, Call.retryTask env t a ∉ calls)
    (hfail : Along step (fun db call => ¬ FailsStepOf t db call) db calls) :
    (taskStatus t db = some .cancelling ∨ taskStatus t db = some .cancelled) ∧
      Along step (Stands t) db calls := by
  have h₀ : db₀.Constraints :=
    inv_reachable (fun _ call h => constraints_step call h) constraints_empty hr
  have hdb : db.Constraints := by
    have := constraints_step (.cancel env t a) h₀
    rwa [step, hok] at this
  have hv := halted_of_cancel h₀ hopen hok
  constructor
  · obtain ⟨⟨tk, htk, -, hs⟩, -⟩ := hv
    rw [taskStatus_eq, htk]
    simpa using hs.symm
  · have hguard := along_and.mpr ⟨along_of_forall (R := fun call => ∀ env a,
      call ≠ .retryTask env t a) fun call hc env a he => hretry env a (by rwa [← he]), hfail⟩
    exact along_of_inv (I := fun db => db.Constraints ∧ Halted t false (view db))
      (fun db call hI hG => ⟨constraints_step call hI.1, halted_step hI.1 hI.2 hG.1 hG.2⟩)
      (fun db call hI hG => stands_of_halted hI.1 hI.2 hG.1 hG.2) ⟨hdb, hv⟩ hguard

def claimedTask : TaskDb :=
  run step {} [.create (envAt 0) "a" "w" "title" "objective" false [] .hosted,
    .claimOne (envAt 1) "worker" 60 [.hosted]]

/-- The witness: the step of the cancelled task completes. -/
theorem cancellation_final_of_completed :
    (taskStatus 0 (step claimedTask (.cancel (envAt 2) 0 "a")) = some .cancelling ∨
      taskStatus 0 (step claimedTask (.cancel (envAt 2) 0 "a")) = some .cancelled) ∧
    Along step (Stands 0) (step claimedTask (.cancel (envAt 2) 0 "a"))
      [.completeStep (envAt 3) 0 "a" "done" none none] :=
  have hok : exec claimedTask (.cancel (envAt 2) 0 "a") =
    (.ok .none, step claimedTask (.cancel (envAt 2) 0 "a")) := by decide
  cancellation_final ⟨_, rfl⟩ (by decide) hok (by simp) ⟨id, trivial⟩

/-- **The claim fails**: the worker reports a retryable failure after the cancellation, the task is
queued, and its step is started again. -/
theorem cancellation_not_final :
    Reachable step {} claimedTask ∧
    (∀ task ∈ claimedTask.tasks, task.id = 0 → ¬ Terminal task.status) ∧
    (exec claimedTask (.cancel (envAt 2) 0 "a")).1 = .ok .none ∧
    ¬ Along step (Stands 0) (step claimedTask (.cancel (envAt 2) 0 "a"))
      [.failStep (envAt 3) 0 "a" "boom" 5 true, .claimOne (envAt 9) "worker" 60 [.hosted]] ∧
    taskStatus 0 (run step claimedTask [.cancel (envAt 2) 0 "a",
      .failStep (envAt 3) 0 "a" "boom" 5 true]) = some .queued ∧
    started (run step claimedTask [.cancel (envAt 2) 0 "a",
      .failStep (envAt 3) 0 "a" "boom" 5 true]) (.claimOne (envAt 9) "worker" 60 [.hosted]) =
        some 0 :=
  ⟨⟨_, rfl⟩, by decide, by decide, by decide, by decide, by decide⟩

end Smara.TaskStore.Cancellation
