import Smara.Lib.TwoPhase
import Smara.TaskStore.Cancellation

/-! # Decisions are taken once

`decide` checks the task in one transaction and writes the decision in the next, and `request_approval`
likewise; other calls run between the two. `decided_once` is about any number of such calls on one
task, with claims of hosted workers and of desktops: at most one decision takes effect, by a person or
by the policy of a desktop, every other `decide` raises, and the tables agree with the decision.

It holds of the runs in which a decision is written where the task still awaits it, and no approval is
requested of a task that no longer requires one. Neither `UPDATE` repeats the check that this needs. -/

namespace Smara.TaskStore.Decision

open Lib.Machine Lib.Table Lib.Transaction Lib.Threads Lib.TwoPhase
open TaskStore.Schema TaskStore.Schema.TaskDb TaskStore.Lifecycle
open TaskStore.Claim TaskStore.Report TaskStore.Calls TaskStore.Control
open TaskStore.View TaskStore.Effects TaskStore.Refine TaskStore.Frame
open TaskStore.Cancellation

variable {t : Uuid} {n : ℕ} {c : State} {a : Act}

/-! ### The control state -/

def IsDecision (m : Mark) : Prop := m = .approved ∨ m = .denied

instance : DecidablePred IsDecision := fun m => by unfold IsDecision; infer_instance

/-- The task and its steps agree with the decision on it. -/
def Settled (t : Uuid) (c : State) : Prop :=
  ∃ tk, c.task t = some tk ∧
    ((c.approval t = some .approved ∧ tk.requiresApproval = false ∧ tk.status ≠ .waitingApproval) ∨
      (c.approval t = some .denied ∧ tk.status = .cancelled ∧
        ∀ s st, StepOf c s t st → st.status ≠ .queued ∧ st.status ≠ .running))

/-- Of `n` decisions before, there is none since, or one that everything agrees with. -/
def Single (t : Uuid) (n : ℕ) (c : State) : Prop :=
  (c.log t).countP IsDecision = n ∨ ((c.log t).countP IsDecision = n + 1 ∧ Settled t c)

/-- The acts of decisions, approval requests and claims, without denials while a step runs. -/
def Undisputed (t : Uuid) (c : State) : Act → Prop
  | .deny t' => t' = t → ∀ s st, StepOf c s t st → st.status ≠ .running
  | .gate _ | .approve _ | .requeue _ _ | .drop _ _ | .expire _ _ | .start _ _ => True
  | _ => False

theorem settled_of_same {c' : State} (h : Settled t c) (hs : Same t c c') : Settled t c' := by
  obtain ⟨tk, htk, hset⟩ := h
  refine ⟨tk, hs.task.trans htk, ?_⟩
  simpa only [hs.approval, hs.step] using hset

theorem settled_apply (h : Settled (actTask a) c) (he : Enabled c a) (hu : Undisputed t c a) :
    (¬ ∃ m ∈ marksOf a, IsDecision m) ∧ Settled (actTask a) (apply c a) := by
  obtain ⟨tk, htk, hset⟩ := h
  have hsame : ∀ {tk'}, c.task (actTask a) = some tk' → tk' = tk :=
    fun h => Option.some.inj (h.symm.trans htk)
  have hawait : ¬ AwaitsDecision tk := by
    rintro ⟨hr, hs⟩
    rcases hset with ⟨-, hn, -⟩ | ⟨-, hs', -⟩
    · simp [hn] at hr
    · rcases hs with hs | hs <;> simp [hs'] at hs
  have hrun : ∀ {s st}, StepOf c s (actTask a) st → st.status = .running →
      c.approval (actTask a) = some .approved ∧ tk.requiresApproval = false ∧
        tk.status ≠ .waitingApproval := by
    intro s st hst hr
    rcases hset with h | ⟨-, -, hn⟩
    · exact h
    · exact absurd hr (hn s st hst).2
  -- a running step makes the decision an approval, which these acts keep
  have hkeep : ∀ {s st}, StepOf c s (actTask a) st → st.status = .running →
      (taskAfter a tk).requiresApproval = tk.requiresApproval →
      (taskAfter a tk).status ≠ .waitingApproval →
      approvalAfter a (c.approval (actTask a)) = c.approval (actTask a) →
      Settled (actTask a) (apply c a) := by
    intro s st hst hr hreq hstatus happ
    obtain ⟨h1, h2, -⟩ := hrun hst hr
    exact ⟨_, task_apply a htk, Or.inl ⟨by rw [approval_apply, happ, h1], by rw [hreq, h2], hstatus⟩⟩
  cases a with
  | gate t' =>
    obtain ⟨tk', htk', hr, hs⟩ := he
    obtain rfl := hsame htk'
    exact absurd ⟨hr, Or.inl hs⟩ hawait
  | approve t' | deny t' =>
    obtain ⟨tk', htk', hw⟩ := he
    obtain rfl := hsame htk'
    exact absurd hw hawait
  | requeue s t' =>
    refine ⟨by simp [marksOf], ?_⟩
    obtain ⟨⟨st, hst, hr⟩, -⟩ := he
    obtain ⟨-, -, hw⟩ := hrun hst hr
    refine hkeep hst hr ?_ ?_ rfl
    · simp only [taskAfter]
      split_ifs <;> rfl
    · simp only [taskAfter]
      split_ifs
      · simp
      · exact hw
  | drop s t' =>
    obtain ⟨⟨st, hst, hr⟩, -⟩ := he
    exact ⟨by simp [marksOf], hkeep hst hr rfl (by simp [taskAfter]) rfl⟩
  | expire s t' =>
    obtain ⟨⟨st, hst, hr, -⟩, -⟩ := he
    exact ⟨by simp [marksOf], hkeep hst hr rfl (by simp [taskAfter]) rfl⟩
  | start s t' =>
    refine ⟨by simp [marksOf, IsDecision], ?_⟩
    obtain ⟨-, ⟨tk', htk', hs, -⟩, -⟩ := he
    obtain rfl := hsame htk'
    rcases hset with ⟨h1, h2, -⟩ | ⟨-, hs', -⟩
    · exact ⟨_, task_apply _ htk, Or.inl ⟨by rw [approval_apply]; exact h1, h2, by simp [taskAfter]⟩⟩
    · rcases hs with hs | hs <;> simp [hs'] at hs
  | insert | cancel | retry | complete | failRetry | failFinal | record => exact hu.elim

theorem settled_of_decision (he : Enabled c a) (hu : Undisputed (actTask a) c a)
    (hm : ∃ m ∈ marksOf a, IsDecision m) :
    (marksOf a).countP IsDecision = 1 ∧ Settled (actTask a) (apply c a) := by
  cases a with
  | approve t' =>
    refine ⟨by simp [marksOf, IsDecision], ?_⟩
    obtain ⟨tk, htk, -⟩ := he
    exact ⟨_, task_apply (.approve t') htk, Or.inl ⟨by rw [approval_apply]; rfl, rfl, by simp [taskAfter]⟩⟩
  | deny t' =>
    refine ⟨by simp [marksOf, IsDecision], ?_⟩
    obtain ⟨tk, htk, -⟩ := id he
    refine ⟨_, task_apply (.deny t') htk, Or.inr ⟨by rw [approval_apply]; rfl, rfl, fun s st hst => ?_⟩⟩
    obtain ⟨st₀, hst₀, rfl⟩ := stepOf_of_apply he (by simp [actTask, htk]) hst
    have hidle := hu rfl s st₀ hst₀
    by_cases hq : st₀.status = .queued
    · simp [stepAfter, hst₀.2, actTask, hq]
    · simp [stepAfter, hq, hidle]
  | start s t' => simp [marksOf, IsDecision] at hm
  | gate | requeue | drop | expire => simp [marksOf] at hm
  | insert | cancel | retry | complete | failRetry | failFinal | record => exact hu.elim

theorem closed_apply {m : ℕ} (h : (c.log t).countP IsDecision = m ∧ Settled t c) (he : Enabled c a)
    (hu : Undisputed t c a) :
    ((apply c a).log t).countP IsDecision = m ∧ Settled t (apply c a) := by
  by_cases hown : actTask a = t
  · subst hown
    obtain ⟨hnone, hset⟩ := settled_apply h.2 he hu
    have hzero : (marksOf a).countP IsDecision = 0 := by
      rw [List.countP_eq_zero]
      exact fun m hm hd => hnone ⟨m, hm, of_decide_eq_true hd⟩
    rw [log_apply, List.countP_append, hzero, Nat.add_zero]
    exact ⟨h.1, hset⟩
  · have hsame := frame he hown
    rw [hsame.log]
    exact ⟨h.1, settled_of_same h.2 hsame⟩

theorem single_apply (h : Single t n c) (he : Enabled c a) (hu : Undisputed t c a) :
    Single t n (apply c a) := by
  rcases h with h | h
  · by_cases hown : actTask a = t
    · subst hown
      unfold Single
      rw [log_apply, List.countP_append, h]
      by_cases hm : ∃ m ∈ marksOf a, IsDecision m
      · obtain ⟨hone, hset⟩ := settled_of_decision he hu hm
        exact Or.inr ⟨by rw [hone], hset⟩
      · have hzero : (marksOf a).countP IsDecision = 0 := by
          rw [List.countP_eq_zero]
          exact fun m hmem hd => hm ⟨m, hmem, of_decide_eq_true hd⟩
        exact Or.inl (by rw [hzero, Nat.add_zero])
    · have hsame := frame he hown
      unfold Single
      rw [hsame.log]
      exact Or.inl h
  · exact Or.inr (closed_apply h he hu)

/-! ### The interleaved calls -/

/-- The calls that meet at a task. -/
inductive Request
  | decide (env : Env) (accountId : String) (approved : Bool) (note source : String)
  | requestApproval (env : Env) (accountId : String)
  | claimOne (env : Env) (workerId : String) (leaseSeconds : ℤ) (kinds : List ExecutorKind)
  | claimForExecutor (env : Env) (executorId : Uuid) (token : String) (leaseSeconds : ℤ)
      (autoApproveSafe autoApproveLocal : Bool)

def Request.toCall (t : Uuid) : Request → Call
  | .decide env a approved note source => .decide env t a approved note source
  | .requestApproval env a => .requestApproval env t a
  | .claimOne env w l ks => .claimOne env w l ks
  | .claimForExecutor env e k l safe loc => .claimForExecutor env e k l safe loc

inductive Answer
  | decided
  | requested
  | claimed (row : Option Claimed)
  deriving DecidableEq

abbrev Rest := TaskDb → Except Err Answer × TaskDb

def answering {β : Type} (f : β → Answer) (r : Except Err β × TaskDb) : Except Err Answer × TaskDb :=
  (r.1.map f, r.2)

def decideRest (env : Env) (t : Uuid) (accountId : String) (approved : Bool) (note source : String) :
    Rest := fun db =>
  answering (fun _ => .decided)
    (andThen (transaction (decideWrite env t approved note source))
      (fun _ => query (get t accountId)) db)

def requestRest (env : Env) (task : Task) : Rest := fun db =>
  answering (fun _ => .requested) (transaction (requestApprovalWrite env task) db)

def claimForExecutorRest (env : Env) (e : Executor) (leaseSeconds : ℤ) (safe loc : Bool) : Rest :=
  fun db => answering .claimed (transaction (claimForExecutorWrite env e leaseSeconds safe loc) db)

/-- The check of a call, which ends it or leaves the rest of it. -/
def check (t : Uuid) (db : TaskDb) : Request → Except (Except Err Answer) Rest
  | .decide env a approved note source =>
    match (do decideGuard (← get t a db) : Except Err Unit) with
    | .error e => .error (.error e)
    | .ok _ => .ok (decideRest env t a approved note source)
  | .requestApproval env a =>
    match get t a db with
    | .error e => .error (.error e)
    | .ok task =>
      if !task.requiresApproval then .error (.error (.valueError "Task does not require approval."))
      else if task.status = .queued then .ok (requestRest env task)
      else .error (.ok .requested)
  | .claimOne env w l ks => .ok fun db => answering .claimed (claimOne env w l ks db)
  | .claimForExecutor env e k l safe loc =>
    match executor e k db with
    | .error err => .error (.error err)
    | .ok ex => .ok (claimForExecutorRest env ex l safe loc)

/-- A call on the task `t` in its two transactions. -/
def checkedCall (t : Uuid) (req : Request) : CheckedCall TaskDb Rest (Except Err Answer) where
  check db := check t db req
  write rest := rest

/-! ### Each turn is a path -/

section Turns
variable {db : TaskDb} {P : State → Act → Prop}

/-- The rest of a call that has passed its check. -/
def IsRest (t : Uuid) : Request → Rest → Prop
  | .decide env a approved note source, rest => rest = decideRest env t a approved note source
  | .requestApproval env _, rest => ∃ task, task.id = t ∧ rest = requestRest env task
  | .claimOne env w l ks, rest => rest = fun db => answering .claimed (claimOne env w l ks db)
  | .claimForExecutor env _ _ l safe loc, rest => ∃ ex, rest = claimForExecutorRest env ex l safe loc

theorem isRest_of_check {req : Request} {rest : Rest} (h : check t db req = .ok rest) :
    IsRest t req rest := by
  cases req with
  | decide env a approved note source =>
    simp only [check] at h
    split at h
    · simp at h
    · exact (Except.ok.inj h).symm
  | requestApproval env a =>
    simp only [check] at h
    split at h
    · simp at h
    · next task hget =>
      split_ifs at h
      exact ⟨task, (get_eq_ok hget).2.1, (Except.ok.inj h).symm⟩
  | claimOne env w l ks => exact (Except.ok.inj h).symm
  | claimForExecutor env e k l safe loc =>
    simp only [check] at h
    split at h
    · simp at h
    · next ex _ => exact ⟨ex, (Except.ok.inj h).symm⟩

/-- The task awaits a decision, and a denial would find no step of it running. -/
def Awaits (t : Uuid) (approved : Bool) (db : TaskDb) : Prop :=
  (∃ task ∈ db.tasks, task.id = t ∧ task.requiresApproval = true ∧
    (task.status = .queued ∨ task.status = .waitingApproval)) ∧
  (approved = false → ∀ s ∈ db.taskSteps, s.taskId = t → s.status ≠ .running)

/-- A write finds what its call needs: a decision finds the task awaiting it, and a request for
approval finds no queued task that requires none. -/
def Timely (t : Uuid) (db : TaskDb) : Request → Prop
  | .decide _ _ approved _ _ => Awaits t approved db
  | .requestApproval _ _ => ∀ task ∈ db.tasks, task.id = t → task.status = .queued →
      task.requiresApproval = true
  | _ => True

theorem decideRest_cases (h : db.Constraints) {approved : Bool} (hw : Awaits t approved db)
    (env : Env) (accountId note source : String) :
    (∃ e, decideRest env t accountId approved note source db = (.error e, db)) ∨
      ∃ act, view (decideRest env t accountId approved note source db).2 = apply (view db) act ∧
        actTask act = t ∧ Enabled (view db) act ∧ Undisputed t (view db) act ∧
        ∃ m ∈ marksOf act, IsDecision m := by
  obtain ⟨⟨task, htask, rfl, hreq, hstatus⟩, hidle⟩ := hw
  have hk := keys_of_constraints h
  have htk := view_task_of_mem hk htask
  have haw : AwaitsDecision (taskCtl task) := ⟨hreq, hstatus⟩
  simp only [decideRest, answering, andThen, query]
  rcases transaction_eq (decideWrite env task.id approved note source) db with
    ⟨u, db', hb, -, he⟩ | ⟨e, he⟩
  · rw [he]
    have hv := view_decideWrite hb
    cases approved with
    | true => exact Or.inr ⟨_, hv, rfl, ⟨_, htk, haw⟩, trivial, .approved, by simp [marksOf], Or.inl rfl⟩
    | false =>
      refine Or.inr ⟨_, hv, rfl, ⟨_, htk, haw⟩, fun _ s st hst => ?_, .denied, by simp [marksOf],
        Or.inr rfl⟩
      obtain ⟨row, hrow, -, ht, rfl⟩ := (stepOf_iff hk).mp hst
      exact hidle rfl row hrow ht
  · rw [he]
    exact Or.inl ⟨e, rfl⟩

theorem requestRest_does (h : db.Constraints) {env : Env} {task : Task}
    (ht : Timely task.id db (.requestApproval env task.accountId)) :
    Does (Undisputed task.id) db none (requestRest env task db).2 := by
  have hk := keys_of_constraints h
  refine does_transaction fun u db' hb _ => ?_
  simp only [requestApprovalWrite, Except.ok.injEq, Prod.mk.injEq, true_and] at hb
  subst hb
  by_cases hrow : ∃ row ∈ db.tasks, row.id = task.id ∧ row.accountId = task.accountId ∧
      row.status = .queued
  · obtain ⟨row, hm, hid, hacc, hs⟩ := hrow
    refine Does.act (a := .gate task.id) ?_ ⟨_, hid ▸ view_task_of_mem hk hm, ht row hm hid hs, hs⟩
      trivial
    rw [view_logEvent_none rfl]
    refine view_updTasks _ (fun _ => rfl) fun x hx => ?_
    by_cases hxid : x.id = task.id
    · obtain rfl := hk.tasks.eq_of_key hx hm (hxid.trans hid.symm)
      simp [hs, hxid, hacc, taskCtl]
    · simp [hxid]
  · refine Does.of_view_eq ?_
    rw [view_logEvent_none rfl]
    refine Eq.trans (view_updTasks (fun _ x => x) (by intros; rfl) fun x hx => ?_) ?_
    · rw [if_neg fun hp => hrow ⟨x, hx, hp⟩]
    · simp [State.mapTask]

theorem undisputed_of_claim {call : Call} {req : Request} (hc : req.toCall t = call)
    (hclaim : ∀ env a ok note source, req ≠ .decide env a ok note source)
    (hm : MayDo db call c a) : Undisputed t c a := by
  cases hm with
  | requestApproval | requeueHosted | dropHosted | gateHosted | startHosted => trivial
  | requeueDesktop | dropDesktop | expireDesktop | autoApprove | startDesktop => trivial
  | approve | deny =>
    cases req <;> simp [Request.toCall] at hc
    exact absurd rfl (hclaim _ _ _ _ _)
  | _ => cases req <;> simp [Request.toCall] at hc

theorem rest_does (h : db.Constraints) {req : Request} {rest : Rest} (hr : IsRest t req rest)
    (ht : Timely t db req) : ∃ s, Does (Undisputed t) db s (rest db).2 := by
  have hcall : ∀ {s db'}, (∀ env a ok note source, req ≠ .decide env a ok note source) →
      Does (MayDo db (req.toCall t)) db s db' → ∃ s, Does (Undisputed t) db s db' :=
    fun hd hdoes => ⟨_, hdoes.mono fun _ _ => undisputed_of_claim rfl hd⟩
  cases req with
  | decide env a approved note source =>
    obtain rfl := hr
    rcases decideRest_cases h ht env a note source with ⟨e, he⟩ | ⟨act, hv, -, hen, hun, -⟩
    · rw [he]
      exact ⟨none, Does.refl⟩
    · exact ⟨_, Does.act hv hen hun⟩
  | requestApproval env a =>
    obtain ⟨task, rfl, rfl⟩ := hr
    exact ⟨none, requestRest_does h ht⟩
  | claimOne env w l ks =>
    obtain rfl := hr
    exact hcall (by simp) (claimOne_does h w l ks)
  | claimForExecutor env e k l safe loc =>
    obtain ⟨ex, rfl⟩ := hr
    exact hcall (by simp) (claimForExecutorWrite_does h e k ex l safe loc)

theorem rest_keeps {req : Request} {rest : Rest} (hr : IsRest t req rest) :
    Keeps Constraints rest := by
  cases req with
  | decide env a approved note source =>
    obtain rfl := hr
    have hkeeps : Keeps Constraints (andThen (transaction (decideWrite env t approved note source))
        fun _ => query (get t a)) := keeps_andThen (keeps_transaction _) fun _ => keeps_query _
    exact fun db hdb => hkeeps db hdb
  | requestApproval env a =>
    obtain ⟨task, -, rfl⟩ := hr
    exact keeps_transaction (requestApprovalWrite env task)
  | claimOne env w l ks =>
    obtain rfl := hr
    exact keeps_transaction (claimOneWrite env w l ks)
  | claimForExecutor env e k l safe loc =>
    obtain ⟨ex, rfl⟩ := hr
    exact keeps_transaction (claimForExecutorWrite env ex l safe loc)

/-- A call of `decide`. -/
def Request.IsDecide (req : Request) : Prop :=
  ∃ env a approved note source, req = .decide env a approved note source

/-- What a call of `decide` is answered: that it has decided, or an error. -/
def DecideAnswer (answer : Except Err Answer) : Prop :=
  answer = .ok .decided ∨ ∃ e, answer = .error e

theorem rest_decided {req : Request} {rest : Rest} (hr : IsRest t req rest)
    (ha : (rest db).1 = .ok .decided) : req.IsDecide := by
  have hne : ∀ {β : Type} {f : β → Answer} {o : Except Err β × TaskDb}, (∀ b, f b ≠ .decided) →
      (answering f o).1 ≠ .ok .decided := by
    rintro β f ⟨e | b, db'⟩ hf h
    · simp [answering, Except.map] at h
    · simp only [answering, Except.map, Except.ok.injEq] at h
      exact hf b h
  cases req with
  | decide env a approved note source => exact ⟨env, a, approved, note, source, rfl⟩
  | requestApproval env a =>
    obtain ⟨task, -, rfl⟩ := hr
    exact absurd ha (hne fun _ => by simp)
  | claimOne env w l ks =>
    obtain rfl := hr
    exact absurd ha (hne fun _ => by simp)
  | claimForExecutor env e k l safe loc =>
    obtain ⟨ex, rfl⟩ := hr
    exact absurd ha (hne fun _ => by simp)

theorem decideAnswer_of_rest {req : Request} {rest : Rest} (hd : req.IsDecide)
    (hr : IsRest t req rest) : DecideAnswer (rest db).1 := by
  obtain ⟨env, a, approved, note, source, rfl⟩ := hd
  obtain rfl := hr
  simp only [decideRest, answering]
  rcases (andThen (transaction (decideWrite env t approved note source))
    (fun _ => query (get t a)) db).1 with e | task
  · exact Or.inr ⟨e, rfl⟩
  · exact Or.inl rfl

theorem decideAnswer_of_check {req : Request} {answer : Except Err Answer} (hd : req.IsDecide)
    (h : check t db req = .error answer) : DecideAnswer answer := by
  obtain ⟨env, a, approved, note, source, rfl⟩ := hd
  simp only [check] at h
  split at h
  · next e _ =>
    rw [← Except.error.inj h]
    exact Or.inr ⟨e, rfl⟩
  · simp at h

theorem check_ne_decided {req : Request} {answer : Except Err Answer}
    (h : check t db req = .error answer) : answer ≠ .ok .decided := by
  rintro rfl
  cases req with
  | decide env a approved note source =>
    simp only [check] at h
    split at h <;> simp at h
  | requestApproval env a =>
    simp only [check] at h
    split at h
    · simp at h
    · split_ifs at h <;> simp at h
  | claimOne env w l ks => simp [check] at h
  | claimForExecutor env e k l safe loc =>
    simp only [check] at h
    split at h <;> simp at h

end Turns

/-! ### Runs -/

section Runs
variable {reqs : ℕ → Request}

abbrev Meeting : Type := Config TaskDb (Phase Rest (Except Err Answer))

abbrev turns (t : Uuid) (reqs : ℕ → Request) :
    ℕ → TaskDb → Phase Rest (Except Err Answer) → TaskDb × Phase Rest (Except Err Answer) :=
  turn fun i => checkedCall t (reqs i)

instance (t : Uuid) (approved : Bool) (db : TaskDb) : Decidable (Awaits t approved db) := by
  unfold Awaits
  infer_instance

instance (t : Uuid) (db : TaskDb) (req : Request) : Decidable (Timely t db req) := by
  cases req <;> unfold Timely <;> infer_instance

/-- A thread that writes does so in time. -/
def InTime (t : Uuid) (reqs : ℕ → Request) (c : Meeting) (i : ℕ) : Prop :=
  match c.phase i with
  | .checked _ => Timely t c.shared (reqs i)
  | _ => True

instance (t : Uuid) (reqs : ℕ → Request) (c : Meeting) (i : ℕ) : Decidable (InTime t reqs c i) := by
  unfold InTime
  split <;> infer_instance

/-- The invariant of the threads. -/
structure Orderly (t : Uuid) (n : ℕ) (reqs : ℕ → Request) (c : Meeting) : Prop where
  constraints : c.shared.Constraints
  single : Single t n (view c.shared)
  rests : ∀ i rest, c.phase i = .checked rest → IsRest t (reqs i) rest
  answers : ∀ i answer, c.phase i = .done answer → (reqs i).IsDecide → DecideAnswer answer

theorem turn_does {c : Meeting} {i : ℕ} (h : Orderly t n reqs c) (hG : InTime t reqs c i) :
    ∃ s, Does (Undisputed t) c.shared s (Lib.Threads.step (turns t reqs) c i).shared := by
  rw [step_shared]
  cases hp : c.phase i with
  | ready =>
    rw [turn_ready]
    exact ⟨none, Does.refl⟩
  | checked rest =>
    rw [InTime, hp] at hG
    exact rest_does h.constraints (h.rests i rest hp) hG
  | done a => exact ⟨none, Does.refl⟩

theorem orderly_step {c : Meeting} {i : ℕ} (h : Orderly t n reqs c) (hG : InTime t reqs c i) :
    Orderly t n reqs (Lib.Threads.step (turns t reqs) c i) := by
  refine ⟨?_, ?_, fun j rest hj => ?_, fun j answer hj hd => ?_⟩
  · rw [step_shared]
    cases hp : c.phase i with
    | ready =>
      rw [turn_ready]
      exact h.constraints
    | checked rest => exact rest_keeps (h.rests i rest hp) c.shared h.constraints
    | done a => exact h.constraints
  · obtain ⟨s, as, hpath, -⟩ := turn_does h hG
    exact hpath.inv (fun _ _ hs he hu => single_apply hs he hu) h.single
  · by_cases hji : j = i
    · subst hji
      rw [step_phase_self] at hj
      cases hp : c.phase j with
      | ready =>
        rw [hp] at hj
        simp only [turn] at hj
        split at hj
        · simp at hj
        · next rest' hcheck =>
          simp only [Phase.checked.injEq] at hj
          rw [← hj]
          exact isRest_of_check hcheck
      | checked rest' =>
        rw [hp] at hj
        simp [turn] at hj
      | done a =>
        rw [hp] at hj
        simp [turn] at hj
    · rw [step_phase_of_ne hji] at hj
      exact h.rests j rest hj
  · by_cases hji : j = i
    · subst hji
      rw [step_phase_self] at hj
      cases hp : c.phase j with
      | ready =>
        rw [hp] at hj
        simp only [turn] at hj
        split at hj
        · next answer' hcheck =>
          rw [← Phase.done.inj hj]
          exact decideAnswer_of_check hd hcheck
        · simp at hj
      | checked rest =>
        rw [hp] at hj
        rw [← Phase.done.inj hj]
        exact decideAnswer_of_rest hd (h.rests j rest hp)
      | done answer' =>
        rw [hp] at hj
        rw [← Phase.done.inj hj]
        exact h.answers j answer' hp hd
    · rw [step_phase_of_ne hji] at hj
      exact h.answers j answer hj hd

def decisions (t : Uuid) (db : TaskDb) : ℕ :=
  db.taskEvents.countP fun e =>
    e.taskId = t ∧ (e.type = "approval.approved" ∨ e.type = "approval.denied")

theorem markOf_isDecision {type : String} :
    (∃ m ∈ markOf type, IsDecision m) ↔ type = "approval.approved" ∨ type = "approval.denied" := by
  unfold markOf
  split <;> simp_all [IsDecision]

theorem decisions_eq (t : Uuid) (db : TaskDb) :
    decisions t db = ((view db).log t).countP IsDecision := by
  rw [decisions, show (view db).log t = history db.taskEvents t from rfl, history,
    List.filterMap_filter, List.countP_filterMap]
  refine List.countP_congr fun e _ => ?_
  by_cases ht : e.taskId = t
  · have hmark : (∃ m ∈ markOf e.type, IsDecision m) ↔
        e.type = "approval.approved" ∨ e.type = "approval.denied" := markOf_isDecision
    cases hm : markOf e.type <;> simp_all
  · simp [ht]

def Agreed (t : Uuid) (db : TaskDb) : Prop :=
  ∃ task ∈ db.tasks, task.id = t ∧
    ((∃ a ∈ db.approvals, a.taskId = t ∧ a.status = .approved) ∧ task.requiresApproval = false ∧
        task.status ≠ .waitingApproval ∨
      (∃ a ∈ db.approvals, a.taskId = t ∧ a.status = .denied) ∧ task.status = .cancelled ∧
        ∀ s ∈ db.taskSteps, s.taskId = t → s.status ≠ .queued ∧ s.status ≠ .running)

theorem agreed_of_settled {db : TaskDb} (h : db.Constraints) (hs : Settled t (view db)) :
    Agreed t db := by
  have hk := keys_of_constraints h
  have happ : ∀ {status}, (view db).approval t = some status →
      ∃ a ∈ db.approvals, a.taskId = t ∧ a.status = status := fun ha => by
    obtain ⟨a, hl, rfl⟩ := Option.map_eq_some_iff.mp ha
    exact ⟨a, mem_of_lookup hl, key_of_lookup hl, rfl⟩
  obtain ⟨tk, htk, hset⟩ := hs
  obtain ⟨task, hm, rfl, rfl⟩ := (view_task_iff hk).mp htk
  refine ⟨task, hm, rfl, ?_⟩
  rcases hset with ⟨ha, hr, hw⟩ | ⟨ha, hc, hsteps⟩
  · exact Or.inl ⟨happ ha, hr, hw⟩
  · refine Or.inr ⟨happ ha, hc, fun s hs ht => hsteps s.id (stepCtl s) ?_⟩
    exact (stepOf_iff hk).mpr ⟨s, hs, rfl, ht, rfl⟩

theorem decided_wins {c : Meeting} {i : ℕ} (h : Orderly t n reqs c) (hG : InTime t reqs c i)
    (hwon : Answered (· = .ok .decided) ((turns t reqs) i c.shared (c.phase i)).2) :
    Answered (· = .ok .decided) (c.phase i) ∨
      (((view c.shared).log t).countP IsDecision = n ∧
        ¬ ((view (turns t reqs i c.shared (c.phase i)).1).log t).countP IsDecision = n) := by
  cases hp : c.phase i with
  | ready =>
    rw [hp] at hwon
    simp only [turn] at hwon
    split at hwon
    · next a ha => exact absurd hwon (check_ne_decided ha)
    · exact hwon.elim
  | done a =>
    rw [hp] at hwon
    exact Or.inl hwon
  | checked rest =>
    rw [hp] at hwon
    rw [InTime, hp] at hG
    have hrest := h.rests i rest hp
    have hans : (rest c.shared).1 = .ok .decided := hwon
    obtain ⟨env, a, ok, note, source, hreq⟩ := rest_decided hrest hans
    rw [hreq] at hrest hG
    obtain rfl := hrest
    rcases decideRest_cases h.constraints hG env a note source with
      ⟨e, he⟩ | ⟨act, hv, rfl, hen, hun, hm⟩
    · rw [he] at hans
      simp at hans
    · have hn : ((view c.shared).log (actTask act)).countP IsDecision = n := by
        rcases h.single with hn | ⟨-, hset⟩
        · exact hn
        · exact absurd hm (settled_apply hset hen hun).1
      refine Or.inr ⟨hn, ?_⟩
      have hafter : (view (decideRest env (actTask act) a ok note source c.shared).2).log
          (actTask act) = (view c.shared).log (actTask act) ++ marksOf act := by
        rw [hv, log_apply]
      change ¬ ((view (decideRest env (actTask act) a ok note source c.shared).2).log
        (actTask act)).countP IsDecision = n
      rw [hafter, List.countP_append, (settled_of_decision hen hun hm).1, hn]
      omega

theorem decided_stays {c : Meeting} {i : ℕ} (h : Orderly t n reqs c) (hG : InTime t reqs c i)
    (hclosed : ¬ ((view c.shared).log t).countP IsDecision = n) :
    ¬ ((view (turns t reqs i c.shared (c.phase i)).1).log t).countP IsDecision = n := by
  obtain ⟨s, as, hpath, -⟩ := turn_does h hG
  obtain ⟨hcount, -⟩ := hpath.inv (fun _ _ hs he hu => closed_apply hs he hu)
    (h.single.resolve_left hclosed)
  rw [step_shared] at hcount
  omega

/-- What the claims of a task and its steps and the decisions on it have come to. -/
structure DecidedOnce (t : Uuid) (reqs : ℕ → Request) (db₀ : TaskDb) (c : Meeting) : Prop where
  /-- At most one decision takes effect. -/
  single : decisions t c.shared ≤ decisions t db₀ + 1
  /-- At most one `decide` returns. -/
  winner : AtMostOne (· = .ok .decided) c
  /-- The others raise. -/
  raises : ∀ i answer, c.phase i = .done answer → (reqs i).IsDecide → DecideAnswer answer
  /-- Once a decision has taken effect, the tables agree with it. -/
  agreed : decisions t c.shared ≠ decisions t db₀ → Agreed t c.shared
  /-- A `decide` that has returned has taken effect. -/
  effective : ∀ i, Answered (· = .ok .decided) (c.phase i) → decisions t c.shared ≠ decisions t db₀

/-- **Decided once.** Of the calls that meet at a task of a reachable state, if each writes in time, at
most one `decide` takes effect and the others raise; once one has, the tables agree with it. -/
theorem decided_once {db₀ : TaskDb} (hr : Reachable Calls.step {} db₀) (t : Uuid)
    (reqs : ℕ → Request) {is : List ℕ}
    (hG : Along (Lib.Threads.step (turns t reqs)) (InTime t reqs) (start db₀) is) :
    DecidedOnce t reqs db₀ (run (Lib.Threads.step (turns t reqs)) (start db₀) is) := by
  have h₀ : Orderly t (decisions t db₀) reqs (start db₀) :=
    ⟨inv_reachable (fun _ call h => constraints_step call h) constraints_empty hr,
      Or.inl (decisions_eq t db₀).symm, fun i rest hi => by simp [start] at hi,
      fun i answer hi => by simp [start] at hi⟩
  have hone : OneWinner (fun db => ((view db).log t).countP IsDecision = decisions t db₀)
      (Answered (· = .ok .decided)) (run (Lib.Threads.step (turns t reqs)) (start db₀) is) :=
    winner_unique (fun _ _ hI hg => orderly_step hI hg) (fun _ _ hI hg => decided_wins hI hg)
      (fun _ _ hI hg => decided_stays hI hg) h₀ (fun i hi => by simp [start, Answered] at hi) hG
  have hend : Orderly t (decisions t db₀) reqs
      (run (Lib.Threads.step (turns t reqs)) (start db₀) is) :=
    inv_run (fun _ _ hI hg => orderly_step hI hg) h₀ hG
  refine ⟨?_, hone.unique, hend.answers, fun hne => ?_, fun i hwon heq => ?_⟩
  · rw [decisions_eq]
    rcases hend.single with hn | ⟨hn, -⟩
    · exact hn.le.trans (Nat.le_succ _)
    · exact hn.le
  · rw [decisions_eq] at hne
    exact agreed_of_settled hend.constraints (hend.single.resolve_left hne).2
  · rw [decisions_eq] at heq
    exact hone.unclaimed heq i hwon

def gatedTask : TaskDb :=
  run Calls.step {} [.create (envAt 0) "a" "w" "title" "objective" true [] .hosted]

def approveOrDeny (i : ℕ) : Request := .decide (envAt (i + 1)) "a" (i = 0) "" "user"

def approveOrRequest (i : ℕ) : Request :=
  if i = 0 then .decide (envAt 1) "a" true "" "user" else .requestApproval (envAt (i + 1)) "a"

/-- The witness: the calls one after the other. -/
theorem decided_once_of_serial :
    DecidedOnce 0 approveOrDeny gatedTask
      (run (Lib.Threads.step (turns 0 approveOrDeny)) (start gatedTask) [0, 0, 1, 1]) :=
  decided_once ⟨_, rfl⟩ 0 approveOrDeny (by decide)

/-- **The claim fails**: the denial has checked the task before the approval is written, and both take
effect; an approval is written after the request for it was checked, and the task waits for another. -/
theorem decided_twice :
    Reachable Calls.step {} gatedTask ∧
    ¬ DecidedOnce 0 approveOrDeny gatedTask
      (run (Lib.Threads.step (turns 0 approveOrDeny)) (start gatedTask) [0, 1, 0, 1]) ∧
    ¬ DecidedOnce 0 approveOrRequest gatedTask
      (run (Lib.Threads.step (turns 0 approveOrRequest)) (start gatedTask) [1, 0, 0, 1]) := by
  refine ⟨⟨_, rfl⟩, fun h => ?_, fun h => ?_⟩
  · exact absurd h.single (by decide)
  · obtain ⟨task, ht, hid, hset⟩ := h.agreed (by decide)
    have hall : ∀ task ∈ (run (Lib.Threads.step (turns 0 approveOrRequest)) (start gatedTask)
        [1, 0, 0, 1]).shared.tasks, task.status = .waitingApproval := by decide
    rcases hset with ⟨-, -, hs⟩ | ⟨-, hs, -⟩
    · exact hs (hall task ht)
    · simp [hall task ht] at hs

end Runs

end Smara.TaskStore.Decision
