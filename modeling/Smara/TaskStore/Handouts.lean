import Smara.TaskStore.Leases

/-! # Handouts of desktop steps

The transactions of the store, each an event of its own: a call that reads first and writes later, and the two halves of a
report of an executor, may be cut apart by any others.

* `Carries`: rows of steps are kept, and no step of a kind becomes queued.
* `carries_step`: every transaction but a retry is such a step for the desktop steps of a task that are no reads.
* `handed_once`: `claim_for_executor` hands out such a step at most once without a retry of its task. -/

namespace Smara.TaskStore.Handouts

open Lib.Machine Lib.Table Lib.Transaction
open TaskStore.Schema TaskStore.Schema.TaskDb TaskStore.Lifecycle
open TaskStore.Claim TaskStore.Report TaskStore.Calls TaskStore.View
open TaskStore.Effects TaskStore.Refine TaskStore.Leases

variable {db db' db'' : TaskDb} {env : Env} {t s : Uuid} {r r' : TaskStep}

/-! ### Transactions -/

/-- The calls that are not cut here: they create tasks, or leave the steps as they are. -/
def Whole : Call → Prop
  | .create _ _ _ _ _ _ _ _ | .createResearch _ _ _ _ _ _ _ | .appendExecutorProgress _ _ _ _ _ | .appendEvent _ _ _ _
  | .createArtifact _ _ _ _ _ _ | .addEvidence _ _ _ _ _ | .updateEvidence _ _ _ _ | .createExecutorPairing _ _ _ _ _
  | .pairExecutor _ _ _ | .heartbeatExecutor _ _ _ _ | .revokeExecutor _ _ | .revokeExecutorWithToken _ _ => True
  | _ => False

instance : DecidablePred Whole := fun call => by
  apply @Call.casesOn (fun call => Decidable (Whole call)) call <;> intros <;> unfold Whole <;> infer_instance

/-- A transaction, with what its call has read before it. -/
inductive Event
  | call (call : Call)
  | requestApproval (env : Env) (task : Task)
  | decide (env : Env) (taskId : Uuid) (approved : Bool) (note source : String)
  | cancel (env : Env) (taskId : Uuid)
  | retry (env : Env) (taskId : Uuid) (accountId : String) (requiresApproval : Bool)
  | claimOne (env : Env) (workerId : String) (leaseSeconds : ℤ) (kinds : List ExecutorKind)
  | claim (env : Env) (executor : Executor) (leaseSeconds : ℤ) (autoApproveSafe autoApproveLocal : Bool)
  | heartbeat (env : Env) (executorId stepId : Uuid) (leaseSeconds : ℤ)
  | completeCheck (env : Env) (executorId stepId : Uuid)
  | complete (env : Env) (stepId : Uuid) (accountId result : String) (artifactKind artifactName : Option String)
  | failCheck (env : Env) (executorId stepId : Uuid) (error : String)
  /-- The `fail_step` after a check that let it through. -/
  | fail (env : Env) (i : ℕ) (accountId error : String)
  /-- The `fail_step` of a hosted worker, for a step that is not on a desktop. -/
  | workerFail (env : Env) (stepId : Uuid) (accountId error : String) (retryDelaySeconds : ℤ) (retryable : Bool)

/-- The tables, and what the checks of `fail_executor_step` have let through: the step, and whether it may be retried. -/
structure World where
  db : TaskDb := {}
  passed : List (Uuid × Bool) := []

def Remote (db : TaskDb) (s : Uuid) : Prop := ∀ row ∈ db.taskSteps, row.id = s → row.executorKind ≠ .desktop

instance (db : TaskDb) : DecidablePred (Remote db) := fun s => by unfold Remote; infer_instance

def step (w : World) : Event → World
  | .call call => if Whole call then { w with db := Calls.step w.db call } else w
  | .requestApproval env task => { w with db := (transaction (requestApprovalWrite env task) w.db).2 }
  | .decide env t ok note source => { w with db := (transaction (decideWrite env t ok note source) w.db).2 }
  | .cancel env t => { w with db := (transaction (cancelWrite env t) w.db).2 }
  | .retry env t a gated => { w with db := (transaction (retryWrite env t a gated) w.db).2 }
  | .claimOne env worker l ks => { w with db := (transaction (claimOneWrite env worker l ks) w.db).2 }
  | .claim env ex l safe loc => { w with db := (transaction (claimForExecutorWrite env ex l safe loc) w.db).2 }
  | .heartbeat env x s l => { w with db := (transaction (heartbeatWrite env x s l) w.db).2 }
  | .completeCheck env x s => { w with db := (transaction (completeExecutorCheck env x s) w.db).2 }
  | .complete env s a result ak an => { w with db := (transaction (completeStepWrite env s a result ak an) w.db).2 }
  | .failCheck env x s error =>
    match transaction (failExecutorCheck env x s error) w.db with
    | (.ok (false, retryable), db) => ⟨db, w.passed ++ [(s, retryable)]⟩
    | (_, db) => { w with db }
  | .fail env i a error =>
    match w.passed[i]? with
    | some (s, retryable) => { w with db := (transaction (failStepWrite env s a error 30 retryable) w.db).2 }
    | none => w
  | .workerFail env s a error d retryable =>
    if Remote w.db s then { w with db := (transaction (failStepWrite env s a error d retryable) w.db).2 } else w

/-- The step that `claim_for_executor` hands out. -/
def handed (w : World) : Event → Option Uuid
  | .claim env ex l safe loc => leasedBy (replying .claim (transaction (claimForExecutorWrite env ex l safe loc) w.db)).1
  | _ => none

/-! ### Rows -/

def SameStep (r r' : TaskStep) : Prop :=
  r'.id = r.id ∧ r'.taskId = r.taskId ∧ r'.executorKind = r.executorKind ∧ r'.requiredCapability = r.requiredCapability

def Guarded (t : Uuid) (r : TaskStep) : Prop :=
  r.taskId = t ∧ r.executorKind = .desktop ∧ r.requiredCapability ≠ some "local_file_read"

theorem Guarded.same (h : Guarded t r) (hsame : SameStep r r') : Guarded t r' := by
  obtain ⟨-, htask, hkind, hcap⟩ := hsame
  unfold Guarded
  rw [htask, hkind, hcap]
  exact h

def Carries (t : Uuid) (db db' : TaskDb) : Prop :=
  ∀ r ∈ db.taskSteps, ∃ r' ∈ db'.taskSteps, SameStep r r' ∧ (Guarded t r → r'.status = .queued → r.status = .queued)

theorem carries_of_eq (h : db'.taskSteps = db.taskSteps) : Carries t db db' :=
  fun r hr => ⟨r, h ▸ hr, ⟨rfl, rfl, rfl, rfl⟩, fun _ hq => hq⟩

theorem Carries.trans (h : Carries t db db') (h' : Carries t db' db'') : Carries t db db'' := by
  intro r hr
  obtain ⟨r', hr', hsame, hq⟩ := h r hr
  obtain ⟨r'', hr'', hsame', hq'⟩ := h' r' hr'
  refine ⟨r'', hr'', ⟨hsame'.1.trans hsame.1, hsame'.2.1.trans hsame.2.1, hsame'.2.2.1.trans hsame.2.2.1,
    hsame'.2.2.2.trans hsame.2.2.2⟩, fun hg hqueued => ?_⟩
  exact hq hg (hq' (hg.same hsame) hqueued)

instance : Std.Refl (Carries t) := ⟨fun _ => carries_of_eq rfl⟩

instance : IsTrans TaskDb (Carries t) := ⟨fun _ _ _ h h' => h.trans h'⟩

theorem carries_append {rows : List TaskStep} (h : db'.taskSteps = db.taskSteps ++ rows) : Carries t db db' :=
  fun r hr => ⟨r, h ▸ List.mem_append_left rows hr, ⟨rfl, rfl, rfl, rfl⟩, fun _ hq => hq⟩

theorem carries_updSteps {q : TaskStep → Prop} [DecidablePred q] {f : TaskStep → TaskStep}
    (h : db'.taskSteps = updateWhere q f db.taskSteps) (hf : ∀ r, SameStep r (f r))
    (hq : ∀ r ∈ db.taskSteps, q r → Guarded t r → (f r).status ≠ .queued) : Carries t db db' := by
  intro r hr
  refine ⟨if q r then f r else r, h ▸ mem_updateWhere.mpr ⟨r, hr, rfl⟩, ?_, fun hg hqueued => ?_⟩
  · split_ifs
    · exact hf r
    · exact ⟨rfl, rfl, rfl, rfl⟩
  · split_ifs at hqueued with hqr
    · exact absurd hqueued (hq r hr hqr hg)
    · exact hqueued

theorem Carries.eq_of_id (h : Carries t db db') (hk : Keyed TaskStep.id db'.taskSteps) (hr : r ∈ db.taskSteps)
    (hr' : r' ∈ db'.taskSteps) (hid : r'.id = r.id) : SameStep r r' := by
  obtain ⟨r'', hr'', hsame, -⟩ := h r hr
  rw [hk.eq_of_key hr' hr'' (hid.trans hsame.1.symm)]
  exact hsame

/-! ### Each transaction -/

theorem carries_transaction {β : Type} {body : TaskDb → Except Err (β × TaskDb)}
    (h : ∀ b db', body db = .ok (b, db') → Carries t db db') : Carries t db (transaction body db).2 := by
  rcases transaction_eq body db with ⟨b, db', hb, -, he⟩ | ⟨e, he⟩
  · rw [he]
    exact h b db' hb
  · rw [he]
    exact carries_of_eq rfl

theorem moves_of_eq {β : Type} {body : TaskDb → Except Err (β × TaskDb)}
    (h : ∀ db b db', body db = .ok (b, db') → db'.taskSteps = db.taskSteps) : Moves (Carries t) (transaction body) :=
  moves_commit fun db b db' hb => carries_of_eq (h db b db' hb)

theorem carries_decide {ok : Bool} {note source : String} : Carries t db (transaction (decideWrite env s ok note source) db).2 := by
  refine carries_transaction fun b db' hb => ?_
  simp only [decideWrite, Except.ok.injEq, Prod.mk.injEq, true_and] at hb
  rw [← hb]
  cases ok with
  | true => exact carries_of_eq rfl
  | false => exact carries_updSteps rfl (fun _ => ⟨rfl, rfl, rfl, rfl⟩) fun _ _ _ _ hq => by cases hq

theorem carries_cancel : Carries t db (transaction (cancelWrite env s) db).2 := by
  refine carries_transaction fun b db' hb => ?_
  simp only [cancelWrite, Except.ok.injEq, Prod.mk.injEq, true_and] at hb
  rw [← hb]
  split_ifs
  · exact carries_updSteps rfl (fun _ => ⟨rfl, rfl, rfl, rfl⟩) fun _ _ _ _ hq => by cases hq
  · exact carries_updSteps rfl (fun _ => ⟨rfl, rfl, rfl, rfl⟩) fun _ _ _ _ hq => by cases hq

theorem carries_retry {a : String} {gated : Bool} (h : s ≠ t) : Carries t db (transaction (retryWrite env s a gated) db).2 := by
  refine carries_transaction fun b db' hb => ?_
  simp only [retryWrite, Except.ok.injEq, Prod.mk.injEq, true_and] at hb
  rw [← hb]
  split_ifs
  · exact carries_updSteps rfl (fun _ => ⟨rfl, rfl, rfl, rfl⟩) fun r _ hr hg => absurd (hr.1.symm.trans hg.1) h
  · exact carries_updSteps rfl (fun _ => ⟨rfl, rfl, rfl, rfl⟩) fun r _ hr hg => absurd (hr.1.symm.trans hg.1) h

theorem carries_heartbeat {x : Uuid} {l : ℤ} : Carries t db (transaction (heartbeatWrite env x s l) db).2 := by
  refine carries_transaction fun b db' hb => ?_
  unfold heartbeatWrite at hb
  dsimp only at hb
  split at hb
  · simp at hb
  · split at hb
    · simp at hb
    · split_ifs at hb
      · simp only [Except.ok.injEq, Prod.mk.injEq] at hb
        exact carries_of_eq (hb.2 ▸ rfl)
      · simp only [Except.ok.injEq, Prod.mk.injEq] at hb
        rw [← hb.2]
        refine carries_updSteps rfl (fun _ => ⟨rfl, rfl, rfl, rfl⟩) fun r _ hr _ hq => ?_
        simp [hr.2.1] at hq

theorem carries_completeCheck {x : Uuid} : Carries t db (transaction (completeExecutorCheck env x s) db).2 := by
  refine carries_transaction fun b db' hb => ?_
  unfold completeExecutorCheck at hb
  split at hb
  · simp at hb
  · simp only [Except.ok.injEq, Prod.mk.injEq] at hb
    exact carries_of_eq (hb.2 ▸ rfl)

theorem steps_addResult {kind name : Option String} {result : String} {now : Time} :
    (addResult env t s kind name result now db).taskSteps = db.taskSteps := by
  unfold addResult
  split
  · rfl
  · rfl

theorem carries_complete {a result : String} {kind name : Option String} :
    Carries t db (transaction (completeStepWrite env s a result kind name) db).2 := by
  refine carries_transaction fun b db' hb => ?_
  unfold completeStepWrite at hb
  dsimp only at hb
  split at hb
  · simp at hb
  · next row _ =>
    generalize hx : addResult env row.taskId s kind name result env.now _ = x at hb
    have hcarried : Carries t db x := by
      rw [← hx]
      refine carries_updSteps steps_addResult (fun _ => ⟨rfl, rfl, rfl, rfl⟩) fun _ _ _ _ hq => ?_
      cases hq
    split_ifs at hb <;>
    · simp only [Except.ok.injEq, Prod.mk.injEq, true_and] at hb
      exact hcarried.trans (carries_of_eq (hb ▸ rfl))

theorem carries_failCheck {x : Uuid} {error : String} : Carries t db (transaction (failExecutorCheck env x s error) db).2 := by
  refine carries_transaction fun b db' hb => ?_
  unfold failExecutorCheck at hb
  split at hb
  · simp at hb
  · split at hb
    · simp at hb
    · split_ifs at hb
      · simp only [Except.ok.injEq, Prod.mk.injEq] at hb
        rw [← hb.2]
        exact carries_updSteps rfl (fun _ => ⟨rfl, rfl, rfl, rfl⟩) fun _ _ _ _ hq => by cases hq
      · simp only [Except.ok.injEq, Prod.mk.injEq] at hb
        exact carries_of_eq (hb.2 ▸ rfl)

theorem carries_fail {a error : String} {d : ℤ} {retryable : Bool}
    (h : retryable = true → ∀ r ∈ db.taskSteps, r.id = s → ¬ Guarded t r) :
    Carries t db (transaction (failStepWrite env s a error d retryable) db).2 := by
  refine carries_transaction fun b db' hb => ?_
  unfold failStepWrite at hb
  dsimp only at hb
  split at hb
  · simp at hb
  · split_ifs at hb with hretries
    · simp only [Except.ok.injEq, Prod.mk.injEq] at hb
      rw [← hb.2]
      exact carries_updSteps rfl (fun _ => ⟨rfl, rfl, rfl, rfl⟩) fun r hr hid hg _ => h hretries.1 r hr hid hg
    · simp only [Except.ok.injEq, Prod.mk.injEq] at hb
      rw [← hb.2]
      exact carries_updSteps rfl (fun _ => ⟨rfl, rfl, rfl, rfl⟩) fun _ _ _ _ hq => by cases hq

/-! ### Claims -/

theorem carries_foldl {β : Type} {f : TaskDb → β → TaskDb} (item : β → TaskStep) (hk : Keys db)
    (hkeys : ∀ x b, Keys x → Keys (f x b)) {l : List β} (hmem : ∀ b ∈ l, item b ∈ db.taskSteps)
    (h : ∀ x, ∀ b ∈ l, (∀ r ∈ x.taskSteps, r.id = (item b).id → SameStep (item b) r) → Carries t x (f x b)) :
    Carries t db (l.foldl f db) ∧ Keys (l.foldl f db) := by
  have hinv := foldl_inv (f := f) (I := fun l' x => (∀ b ∈ l', b ∈ l) ∧ Carries t db x ∧ Keys x) (l := l) (s := db) ?_
    ⟨fun _ hb => hb, carries_of_eq rfl, hk⟩
  · exact hinv.2
  · rintro b l' x ⟨hsub, hcarried, hkx⟩
    have hb : b ∈ l := hsub b List.mem_cons_self
    refine ⟨fun b' hb' => hsub b' (List.mem_cons_of_mem b hb'), hcarried.trans (h x b hb fun r hr hid => ?_), hkeys x b hkx⟩
    exact hcarried.eq_of_id hkx.steps (hmem b hb) hr hid

theorem carries_recoverHosted {item : TaskStep} (hkind : item.executorKind ≠ .desktop)
    (hrows : ∀ r ∈ db.taskSteps, r.id = item.id → SameStep item r) :
    Carries t db (recoverHosted env env.now db item) := by
  have hfree : ∀ r ∈ db.taskSteps, r.id = item.id → ¬ Guarded t r := fun r hr hid hg =>
    hkind ((hrows r hr hid).2.2.1.symm.trans hg.2.1)
  unfold recoverHosted
  dsimp only
  split_ifs
  · split
    · exact carries_updSteps rfl (fun _ => ⟨rfl, rfl, rfl, rfl⟩) fun _ _ _ _ hq => by cases hq
    · exact carries_updSteps rfl (fun _ => ⟨rfl, rfl, rfl, rfl⟩) fun _ _ _ _ hq => by cases hq
  · exact carries_updSteps rfl (fun _ => ⟨rfl, rfl, rfl, rfl⟩) fun r hr hid hg => absurd hg (hfree r hr hid)

/-- **The recovery of a lease**: only a read is queued again. -/
theorem carries_recoverDesktop {item : Task × TaskStep}
    (hrows : ∀ r ∈ db.taskSteps, r.id = item.2.id → SameStep item.2 r) :
    Carries t db (recoverDesktop env env.now db item) := by
  unfold recoverDesktop
  dsimp only
  split_ifs with hcancelled hread
  · exact carries_updSteps rfl (fun _ => ⟨rfl, rfl, rfl, rfl⟩) fun _ _ _ _ hq => by cases hq
  · exact carries_updSteps rfl (fun _ => ⟨rfl, rfl, rfl, rfl⟩) fun r hr hid hg =>
      absurd ((hrows r hr hid).2.2.2.trans hread) hg.2.2
  · exact carries_updSteps rfl (fun _ => ⟨rfl, rfl, rfl, rfl⟩) fun _ _ _ _ hq => by cases hq

theorem carries_startStep {taskId runId : Uuid} {owner : Owner} {until_ now : Time} :
    Carries t db (startStep taskId runId s owner until_ now db) :=
  carries_updSteps rfl (fun _ => ⟨rfl, rfl, rfl, rfl⟩) fun _ _ _ _ hq => by cases hq

theorem carries_claimOne {worker : String} {l : ℤ} {ks : List ExecutorKind} (h : db.Constraints) :
    Carries t db (transaction (claimOneWrite env worker l ks) db).2 := by
  refine carries_transaction fun b db' hb => ?_
  have hrec := (carries_foldl (t := t) (f := recoverHosted env env.now) (l := expiredHosted env.now db) id
    (keys_of_constraints h) (fun x b hx => (keys_recoverHosted b).mpr hx) (fun b hb => List.mem_of_mem_filter hb)
    fun x b hb hrows => ?_).1
  · simp only [claimOneWrite] at hb
    generalize (expiredHosted env.now db).foldl (recoverHosted env env.now) db = x at hb hrec
    split at hb
    · simp only [Except.ok.injEq, Prod.mk.injEq] at hb
      rw [← hb.2]
      exact hrec
    · split_ifs at hb
      · simp only [Except.ok.injEq, Prod.mk.injEq] at hb
        rw [← hb.2]
        exact hrec.trans (carries_of_eq rfl)
      · simp only [Except.ok.injEq, Prod.mk.injEq] at hb
        rw [← hb.2]
        exact (hrec.trans carries_startStep).trans (carries_of_eq rfl)
  · refine carries_recoverHosted ?_ hrows
    have hkind := (of_decide_eq_true (List.mem_filter.mp hb).2).2.1
    intro hdesktop
    rcases hkind with hkind | hkind
    · exact absurd (hkind.symm.trans hdesktop) (by decide)
    · exact absurd (hkind.symm.trans hdesktop) (by decide)

/-- **What a claim of an executor does**: a step that it hands out was queued before the claim. -/
theorem claim_spec {ex : Executor} {l : ℤ} {safe loc : Bool} (h : db.Constraints) :
    Carries t db (transaction (claimForExecutorWrite env ex l safe loc) db).2 ∧
      ∀ s, leasedBy (replying .claim (transaction (claimForExecutorWrite env ex l safe loc) db)).1 = some s →
        ∃ x, Carries t db x ∧ Keyed TaskStep.id x.taskSteps ∧ ∃ r ∈ x.taskSteps, r.id = s ∧ r.status = .queued := by
  rcases transaction_eq (claimForExecutorWrite env ex l safe loc) db with ⟨b, db', hb, -, he⟩ | ⟨e, he⟩
  · rw [he]
    have hrec := carries_foldl (t := t) (f := recoverDesktop env env.now) (l := expiredDesktop env.now db) Prod.snd
      (keys_of_constraints h) (fun x b hx => (keys_recoverDesktop b).mpr hx)
      (fun b hb => (List.mem_product.mp (List.mem_of_mem_filter hb)).2) fun x b _ hrows => carries_recoverDesktop hrows
    simp only [claimForExecutorWrite] at hb
    generalize (expiredDesktop env.now db).foldl (recoverDesktop env env.now) db = x at hb hrec
    generalize (if (safe || loc) = true then x.tasks.filter fun t =>
      AutoApprovable ex.capabilities loc ex.accountId x t else []) = cs at hb
    have happ : (cs.foldl (autoApprove env env.now ex.accountId loc) x).taskSteps = x.taskSteps :=
      foldl_inv (f := autoApprove env env.now ex.accountId loc)
        (I := fun _ (y : TaskDb) => y.taskSteps = x.taskSteps) (fun _ _ _ hy => hy) rfl
    generalize cs.foldl (autoApprove env env.now ex.accountId loc) x = y at hb happ
    have hy : Carries t db y := hrec.1.trans (carries_of_eq happ)
    split at hb
    · simp only [Except.ok.injEq, Prod.mk.injEq] at hb
      obtain ⟨rfl, rfl⟩ := hb
      refine ⟨hy, fun s hs => ?_⟩
      cases hs
    · next task row hready =>
      obtain ⟨-, hrow, -, -, -, -, -, hqueued, -⟩ := firstRow_joined hready
      simp only [Except.ok.injEq, Prod.mk.injEq] at hb
      obtain ⟨rfl, rfl⟩ := hb
      refine ⟨(hy.trans carries_startStep).trans (carries_of_eq rfl), fun s hs => ⟨y, hy, ?_, row, hrow, ?_, hqueued⟩⟩
      · rw [happ]
        exact hrec.2.steps
      · exact Option.some.inj hs
  · rw [he]
    refine ⟨carries_of_eq rfl, fun s hs => ?_⟩
    cases hs

/-! ### Calls that are not cut -/

theorem carries_call {call : Call} (h : Whole call) : Carries t db (Calls.step db call) := by
  have hrevoke : ∀ (e : Uuid) (p : Executor → Prop) [DecidablePred p], Moves (Carries t) (revoke e p) := fun e p _ =>
    moves_andThen (moves_of_eq fun db b db' hb => by cases hb; rfl) fun _ => moves_query _
  have hevent : ∀ env t' type payload, Moves (Carries t) (appendEvent env t' type payload) := fun _ _ _ _ =>
    moves_of_eq fun db b db' hb => by cases hb; rfl
  cases call with
  | create env a w ti o gated ss m =>
    refine (moves_andThen (moves_commit fun db b db' hb => ?_) fun _ => moves_query _ : Moves (Carries t) _) db
    obtain ⟨task, -, -, -, -, -, -, -, rfl⟩ := insertTask_ok hb
    exact carries_append rfl
  | createResearch env f a w ti q ss =>
    refine (moves_andThen (moves_commit fun db b db' hb => ?_) fun _ => moves_query _ : Moves (Carries t) _) db
    simp only [createResearchWrite, Except.ok.injEq, Prod.mk.injEq] at hb
    rw [← hb.2]
    exact carries_append rfl
  | appendExecutorProgress env e k s m =>
    refine (moves_andThen (moves_query _) fun _ => ?_ : Moves (Carries t) _) db
    dsimp only
    split_ifs
    · exact moves_query _
    · refine moves_of_eq fun db b db' hb => ?_
      split at hb
      · simp at hb
      · cases hb
        rfl
  | appendEvent env t' ty p => exact hevent env t' ty p db
  | createArtifact env t' a k n c =>
    exact (moves_andThen (moves_query _) fun _ => moves_andThen
      (moves_of_eq fun db b db' hb => by cases hb; rfl) fun _ => hevent _ _ _ _ : Moves (Carries t) _) db
  | addEvidence env t' a u ti =>
    refine (moves_andThen (moves_query _) fun _ => moves_of_eq fun db b db' hb => ?_ : Moves (Carries t) _) db
    split_ifs at hb <;>
    · cases hb
      rfl
  | updateEvidence e t' s' ti =>
    exact (moves_of_eq fun db b db' hb => by cases hb; rfl : Moves (Carries t) (updateEvidence e t' s' ti)) db
  | createExecutorPairing env c a n cs =>
    exact (moves_of_eq fun db b db' hb => by cases hb; rfl : Moves (Carries t) (createExecutorPairing env c a n cs)) db
  | pairExecutor env c k =>
    refine (moves_of_eq fun db b db' hb => ?_ : Moves (Carries t) (pairExecutor env c k)) db
    split at hb
    · simp at hb
    · cases hb
      rfl
  | heartbeatExecutor env e k cs =>
    refine (moves_andThen (moves_query _) fun _ => ?_ : Moves (Carries t) _) db
    split_ifs
    · exact moves_query _
    · exact moves_of_eq fun db b db' hb => by cases hb; rfl
  | revokeExecutor e a => exact hrevoke e _ db
  | revokeExecutorWithToken e k => exact hrevoke e _ db
  | _ => exact h.elim

/-! ### Runs -/

def Passes (w : World) : Prop :=
  ∀ x ∈ w.passed, x.2 = true → ∃ r ∈ w.db.taskSteps, r.id = x.1 ∧ r.requiredCapability = some "local_file_read"

/-- The tables are as they should be, and the guarded step is there. -/
structure Inv (t s : Uuid) (w : World) : Prop where
  constraints : w.db.Constraints
  passes : Passes w
  step : ∃ r ∈ w.db.taskSteps, r.id = s ∧ Guarded t r

def Unretried (t : Uuid) : Event → Prop
  | .retry _ t' _ _ => t' ≠ t
  | _ => True

theorem constraints_step {w : World} (h : w.db.Constraints) (e : Event) : (step w e).db.Constraints := by
  cases e with
  | call call =>
    simp only [step]
    split_ifs
    · exact Refine.constraints_step call h
    · exact h
  | failCheck env x s error =>
    have hkept := keeps_transaction (failExecutorCheck env x s error) w.db h
    simp only [step]
    split
    · next heq =>
      rw [heq] at hkept
      exact hkept
    · next heq =>
      rw [heq] at hkept
      exact hkept
  | fail env i a error =>
    simp only [step]
    split
    · exact keeps_transaction _ w.db h
    · exact h
  | workerFail env s a error d retryable =>
    simp only [step]
    split_ifs
    · exact keeps_transaction _ w.db h
    · exact h
  | _ => exact keeps_transaction _ w.db h

theorem retryable_iff {x : Uuid} {error : String} {cancelled retryable : Bool}
    (h : transaction (failExecutorCheck env x s error) db = (.ok (cancelled, retryable), db')) (hr : retryable = true) :
    ∃ r ∈ db.taskSteps, r.id = s ∧ r.requiredCapability = some "local_file_read" := by
  obtain ⟨hok, -⟩ := transaction_ok h
  obtain ⟨row, t, hrow, -, -, hretryable, -⟩ := failExecutorCheck_ok hok
  obtain ⟨hm, hid, -⟩ := leasedStep_eq_some hrow
  rw [hr] at hretryable
  exact ⟨row, hm, hid, of_decide_eq_true hretryable.symm⟩

/-- **Every transaction but a retry of the task** carries its guarded steps. -/
theorem carries_step {w : World} (h : w.db.Constraints) (hp : Passes w) {e : Event} (he : Unretried t e) :
    Carries t w.db (step w e).db := by
  cases e with
  | call call =>
    simp only [step]
    split_ifs with hwhole
    · exact carries_call hwhole
    · exact carries_of_eq rfl
  | requestApproval env task => exact moves_of_eq (fun db b db' hb => by cases hb; rfl) w.db
  | decide env t' ok note source => exact carries_decide
  | cancel env t' => exact carries_cancel
  | retry env t' a gated => exact carries_retry he
  | claimOne env worker l ks => exact carries_claimOne h
  | claim env ex l safe loc => exact (claim_spec h).1
  | heartbeat env x s l => exact carries_heartbeat
  | completeCheck env x s => exact carries_completeCheck
  | complete env s a result ak an => exact carries_complete
  | failCheck env x s error =>
    have hcarried : Carries t w.db (transaction (failExecutorCheck env x s error) w.db).2 := carries_failCheck
    simp only [step]
    split
    · next heq =>
      rw [heq] at hcarried
      exact hcarried
    · next heq =>
      rw [heq] at hcarried
      exact hcarried
  | fail env i a error =>
    simp only [step]
    split
    · next s retryable hpassed =>
      refine carries_fail fun hr r hr' hid hg => ?_
      obtain ⟨row, hrow, hid', hread⟩ := hp _ (List.mem_of_getElem? hpassed) hr
      rw [h.taskSteps.eq_of_key hr' hrow (hid.trans hid'.symm)] at hg
      exact hg.2.2 hread
    · exact carries_of_eq rfl
  | workerFail env s a error d retryable =>
    simp only [step]
    split_ifs with hremote
    · exact carries_fail fun _ r hr hid hg => hremote r hr hid hg.2.1
    · exact carries_of_eq rfl

theorem kept_step {w : World} (h : w.db.Constraints) (hp : Passes w) (e : Event) :
    ∀ r ∈ w.db.taskSteps, ∃ r' ∈ (step w e).db.taskSteps, SameStep r r' := by
  -- some task is not the one that is retried
  obtain ⟨t, ht⟩ : ∃ t, Unretried t e := by
    cases e with
    | retry env t a gated => exact ⟨t + 1, Nat.ne_of_lt (Nat.lt_succ_self t)⟩
    | _ => exact ⟨0, trivial⟩
  intro r hr
  obtain ⟨r', hr', hsame, -⟩ := carries_step h hp ht r hr
  exact ⟨r', hr', hsame⟩

theorem passes_step {w : World} (h : w.db.Constraints) (hp : Passes w) (e : Event) : Passes (step w e) := by
  have hkept : ∀ x ∈ w.passed, x.2 = true →
      ∃ r ∈ (step w e).db.taskSteps, r.id = x.1 ∧ r.requiredCapability = some "local_file_read" := by
    intro x hx hr
    obtain ⟨r, hrow, hid, hread⟩ := hp x hx hr
    obtain ⟨r', hr', hsame⟩ := kept_step h hp e r hrow
    exact ⟨r', hr', hsame.1.trans hid, hsame.2.2.2.trans hread⟩
  cases e with
  | failCheck env x s error =>
    have hcarried : Carries 0 w.db (transaction (failExecutorCheck env x s error) w.db).2 := carries_failCheck
    simp only [step] at hkept ⊢
    split at hkept
    · next retryable db heq =>
      rw [heq] at hcarried
      intro y hy hr
      rcases List.mem_append.mp hy with hy | hy
      · exact hkept y hy hr
      · obtain rfl := List.mem_singleton.mp hy
        obtain ⟨r, hrow, hid, hread⟩ := retryable_iff heq hr
        obtain ⟨r', hr', hsame, -⟩ := hcarried r hrow
        exact ⟨r', hr', hsame.1.trans hid, hsame.2.2.2.trans hread⟩
    · exact hkept
  | call call =>
    simp only [step] at hkept ⊢
    split_ifs at hkept ⊢
    · exact hkept
    · exact hp
  | fail env i a error =>
    simp only [step] at hkept ⊢
    split at hkept
    · exact hkept
    · exact hp
  | workerFail env s a error d retryable =>
    simp only [step] at hkept ⊢
    split_ifs at hkept ⊢
    · exact hkept
    · exact hp
  | _ => exact hkept

theorem inv_step (w : World) (e : Event) (hinv : Inv t s w) (he : Unretried t e) : Inv t s (step w e) := by
  refine ⟨constraints_step hinv.constraints e, passes_step hinv.constraints hinv.passes e, ?_⟩
  obtain ⟨r, hr, hid, hg⟩ := hinv.step
  obtain ⟨r', hr', hsame, -⟩ := carries_step hinv.constraints hinv.passes he r hr
  exact ⟨r', hr', hsame.1.trans hid, hg.same hsame⟩

def left (s : Uuid) (w : World) : ℕ := if ∃ r ∈ w.db.taskSteps, r.id = s ∧ r.status ≠ .queued then 1 else 0

def hands (s : Uuid) (w : World) (e : Event) : ℕ := if handed w e = some s then 1 else 0

theorem left_step (w : World) (e : Event) (hinv : Inv t s w) (he : Unretried t e) :
    left s w + hands s w e ≤ left s (step w e) := by
  have hkeyed := (constraints_step hinv.constraints e).taskSteps
  have hcarried := carries_step hinv.constraints hinv.passes he
  have hstays : left s w ≤ left s (step w e) := by
    unfold left
    by_cases h : ∃ r ∈ w.db.taskSteps, r.id = s ∧ r.status ≠ .queued
    · obtain ⟨r, hr, hid, hstatus⟩ := h
      obtain ⟨r₀, hr₀, hid₀, hg⟩ := hinv.step
      rw [hinv.constraints.taskSteps.eq_of_key hr₀ hr (hid₀.trans hid.symm)] at hg
      obtain ⟨r', hr', hsame, hq⟩ := hcarried r hr
      have hleft : ∃ r ∈ (step w e).db.taskSteps, r.id = s ∧ r.status ≠ .queued :=
        ⟨r', hr', hsame.1.trans hid, fun hqueued => hstatus (hq hg hqueued)⟩
      rw [if_pos hleft]
      split_ifs <;> omega
    · rw [if_neg h]
      exact Nat.zero_le _
  by_cases hhanded : handed w e = some s
  · cases e with
    | claim env ex l safe loc =>
      obtain ⟨x, hx, hkx, r, hr, hid, hqueued⟩ := (claim_spec (t := t) hinv.constraints).2 s hhanded
      have hbefore : ¬ ∃ r ∈ w.db.taskSteps, r.id = s ∧ r.status ≠ .queued := by
        rintro ⟨r₁, hr₁, hid₁, hstatus⟩
        obtain ⟨r₀, hr₀, hid₀, hg⟩ := hinv.step
        rw [hinv.constraints.taskSteps.eq_of_key hr₀ hr₁ (hid₀.trans hid₁.symm)] at hg
        obtain ⟨r', hr', hsame, hq⟩ := hx r₁ hr₁
        rw [hkx.eq_of_key hr' hr (hsame.1.trans (hid₁.trans hid.symm))] at hq
        exact hstatus (hq hg hqueued)
      have hafter : Running (step w (.claim env ex l safe loc)).db s := by
        have hreply : leasedBy (replying .claim (transaction (claimForExecutorWrite env ex l safe loc) w.db)).1 = some s :=
          hhanded
        have hdoes : Does (MayDo w.db (.claimForExecutor env ex.id "" l safe loc)) w.db
            (leasedBy (replying .claim (transaction (claimForExecutorWrite env ex l safe loc) w.db)).1)
            (transaction (claimForExecutorWrite env ex l safe loc) w.db).2 :=
          claimForExecutorWrite_does hinv.constraints ex.id "" ex l safe loc
        rw [hreply] at hdoes
        exact running_of_does (constraints_step hinv.constraints (.claim env ex l safe loc)) hdoes
      obtain ⟨r', hr', hid', hrunning⟩ := hafter
      have hleft : ∃ r ∈ (step w (.claim env ex l safe loc)).db.taskSteps, r.id = s ∧ r.status ≠ .queued :=
        ⟨r', hr', hid', by rw [hrunning]; decide⟩
      unfold left hands
      rw [if_neg hbefore, if_pos hhanded, if_pos hleft]
    | _ => cases hhanded
  · unfold hands
    rw [if_neg hhanded]
    exact hstays

/-- **Local side effects are never replayed**: a desktop step that is no read is handed out at most once in a stretch of a
run without a retry of its task. -/
theorem handed_once {pre mid : List Event} {row : TaskStep} (hrow : row ∈ (run step {} pre).db.taskSteps)
    (hkind : row.executorKind = .desktop) (hcap : row.requiredCapability ≠ some "local_file_read")
    (hretry : ∀ env a gated, Event.retry env row.taskId a gated ∉ mid) :
    total step (hands row.id) (run step {} pre) mid ≤ 1 := by
  have hstart : (run step {} pre).db.Constraints ∧ Passes (run step {} pre) := by
    have hempty : Passes {} := fun x hx => by simp at hx
    exact inv_run (s := ({} : World)) (I := fun w => w.db.Constraints ∧ Passes w) (G := fun _ _ => True)
      (fun w e hw _ => ⟨constraints_step hw.1 e, passes_step hw.1 hw.2 e⟩) ⟨constraints_empty, hempty⟩
      (along_of_forall fun _ _ => trivial)
  have hinv : Inv row.taskId row.id (run step {} pre) := ⟨hstart.1, hstart.2, row, hrow, rfl, rfl, hkind, hcap⟩
  have hunretried : ∀ e ∈ mid, Unretried row.taskId e := by
    intro e he
    cases e with
    | retry env t a gated =>
      rintro rfl
      exact hretry env a gated he
    | _ => trivial
  have htotal := total_add_le inv_step left_step hinv (along_of_forall hunretried)
  have hone : left row.id (run step (run step {} pre) mid) ≤ 1 := by
    unfold left
    split_ifs <;> omega
  omega

/-- A task of one command on the desktop. -/
def createCommand : Event :=
  .call (.create (envAt 0) "a" "w" "title" "objective" true
    [{ name := "run", requiredCapability := some "local_terminal", executorKind := .desktop }] .desktop)

def commandRow : TaskStep :=
  ⟨0, 0, 0, 1, "run", .queued, (0, 1), none, none, 0, 0, 3, none, none, some "local_terminal", .desktop, ⟨"{}", none⟩⟩

def claimCommand (n : ℤ) : Event :=
  .claim (envAt n) ⟨0, "a", "desktop", ["local_terminal"], .sha256 "token", .active, none, 0⟩ 60 false true

/-- The step is handed out, its lease runs out, and it is not handed out again. -/
theorem handed_once_command :
    total step (hands 0) (run step {} [createCommand]) [claimCommand 1, claimCommand 100, claimCommand 200] ≤ 1 :=
  have hrow : commandRow ∈ (run step {} [createCommand]).db.taskSteps := by decide
  handed_once hrow rfl (by decide) (by simp [claimCommand])

/-- It is handed out by the first of these claims. -/
example : total step (hands 0) (run step {} [createCommand]) [claimCommand 1, claimCommand 100] = 1 := by decide

end Smara.TaskStore.Handouts
