import Smara.TaskStore.Effects

/-! # The store refines the control machine

* `MayDo db call c a`: what the call on the tables `db` may do in the control state `c`.
* `call_path`: every call is a path of enabled acts that it may do, which starts exactly the step
  that the call hands out.
* `inv_calls`: an invariant of the control machine holds in every reachable state of the store. -/

namespace Smara.TaskStore.Refine

open Lib.Machine Lib.Table Lib.Transaction TaskStore.Schema TaskStore.Schema.TaskDb
open TaskStore.Lifecycle TaskStore.Claim TaskStore.Report TaskStore.Calls
open TaskStore.Control TaskStore.View TaskStore.Effects

variable {db db' db'' : TaskDb} {env : Env}

/-! ### Constraints -/

theorem keeps_transaction {β : Type} (body : TaskDb → Except Err (β × TaskDb)) :
    Keeps Constraints (transaction body) :=
  keeps_commit fun _ _ _ _ _ hc => hc

/-- **Reachable tables satisfy their constraints.** -/
theorem constraints_step (call : Call) (h : db.Constraints) : (step db call).Constraints := by
  have hdecide : ∀ env t a ok n s, Keeps Constraints (Lifecycle.decide env t a ok n s) := fun _ _ _ _ _ _ =>
    keeps_andThen (keeps_query _) fun _ => keeps_andThen (keeps_transaction _) fun _ => keeps_query _
  have hrevoke : ∀ e p [DecidablePred p], Keeps Constraints (revoke e p) := fun _ _ _ =>
    keeps_andThen (keeps_transaction _) fun _ => keeps_query _
  cases call with
  | create env a w t o r ss m =>
    exact (keeps_andThen (keeps_transaction _) fun _ => keeps_query _ :
      Keeps Constraints (Lifecycle.create env a w t o r ss m)) db h
  | createResearch env f a w t q ss =>
    exact (keeps_andThen (keeps_transaction _) fun _ => keeps_query _ :
      Keeps Constraints (createResearch env f a w t q ss)) db h
  | requestApproval env t a =>
    refine (keeps_andThen (keeps_query _) fun _ => ?_ : Keeps Constraints (requestApproval env t a)) db h
    split_ifs
    exacts [keeps_query _, keeps_andThen (keeps_transaction _) fun _ => keeps_query _, keeps_query _]
  | decide env t a ok n s => exact hdecide env t a ok n s db h
  | decideForExecutor env e k t ok n =>
    exact (keeps_andThen (keeps_query _) fun _ => hdecide _ _ _ _ _ _ :
      Keeps Constraints (decideForExecutor env e k t ok n)) db h
  | cancel env t a =>
    refine (keeps_andThen (keeps_query _) fun _ => ?_ : Keeps Constraints (Lifecycle.cancel env t a)) db h
    split_ifs
    exacts [keeps_query _, keeps_andThen (keeps_transaction _) fun _ => keeps_query _]
  | retryTask env t a =>
    exact (keeps_andThen (keeps_query _) fun _ => keeps_andThen (keeps_transaction _)
      fun _ => keeps_query _ : Keeps Constraints (retryTask env t a)) db h
  | claimOne env w l ks => exact (keeps_transaction _ : Keeps Constraints (claimOne env w l ks)) db h
  | claimForExecutor env e k l safe loc =>
    exact (keeps_andThen (keeps_query _) fun _ => keeps_transaction _ :
      Keeps Constraints (claimForExecutor env e k l safe loc)) db h
  | completeStep env s a r ak an =>
    exact (keeps_transaction _ : Keeps Constraints (completeStep env s a r ak an)) db h
  | failStep env s a e d r => exact (keeps_transaction _ : Keeps Constraints (failStep env s a e d r)) db h
  | completeExecutorStep env e k s r =>
    exact (keeps_andThen (keeps_query _) fun _ => keeps_andThen (keeps_transaction _)
      fun _ => keeps_andThen (keeps_query _) fun _ => keeps_transaction _ :
      Keeps Constraints (completeExecutorStep env e k s r)) db h
  | failExecutorStep env e k s err =>
    refine (keeps_andThen (keeps_query _) fun _ => keeps_andThen (keeps_transaction _)
      fun _ => ?_ : Keeps Constraints (failExecutorStep env e k s err)) db h
    dsimp only
    split_ifs
    exacts [keeps_query _, keeps_transaction _]
  | heartbeatExecutorStep env e k s l =>
    exact (keeps_andThen (keeps_query _) fun _ => keeps_transaction _ :
      Keeps Constraints (heartbeatExecutorStep env e k s l)) db h
  | appendExecutorProgress env e k s m =>
    refine (keeps_andThen (keeps_query _) fun _ => ?_ :
      Keeps Constraints (appendExecutorProgress env e k s m)) db h
    dsimp only
    split_ifs
    exacts [keeps_query _, keeps_transaction _]
  | appendEvent env t ty p => exact (keeps_transaction _ : Keeps Constraints (appendEvent env t ty p)) db h
  | createArtifact env t a k n c =>
    exact (keeps_andThen (keeps_query _) fun _ => keeps_andThen (keeps_transaction _)
      fun _ => keeps_transaction _ : Keeps Constraints (createArtifact env t a k n c)) db h
  | addEvidence env t a u ti =>
    exact (keeps_andThen (keeps_query _) fun _ => keeps_transaction _ :
      Keeps Constraints (addEvidence env t a u ti)) db h
  | updateEvidence e t s ti => exact (keeps_transaction _ : Keeps Constraints (updateEvidence e t s ti)) db h
  | createExecutorPairing env c a n cs =>
    exact (keeps_transaction _ : Keeps Constraints (createExecutorPairing env c a n cs)) db h
  | pairExecutor env c k => exact (keeps_transaction _ : Keeps Constraints (pairExecutor env c k)) db h
  | heartbeatExecutor env e k cs =>
    refine (keeps_andThen (keeps_query _) fun _ => ?_ : Keeps Constraints (heartbeatExecutor env e k cs)) db h
    split_ifs
    exacts [keeps_query _, keeps_transaction _]
  | revokeExecutor e a => exact hrevoke e _ db h
  | revokeExecutorWithToken e k => exact hrevoke e _ db h

theorem constraints_empty : ({} : TaskDb).Constraints := by decide

/-! ### Paths of calls -/

/-- The store goes from `db` to `db'` by enabled acts that satisfy `P`, of which only the last may
start a step, the step `s`. -/
def Does (P : State → Act → Prop) (db : TaskDb) (s : Option Uuid) (db' : TaskDb) : Prop :=
  ∃ as, Acts P (view db) as (view db') ∧ as.filterMap Act.started = s.toList ∧
    ∀ x ∈ s, ∃ bs t, as = bs ++ [.start x t]

section Does
variable {P Q : State → Act → Prop} {s : Option Uuid} {β γ : Type}

theorem Does.of_view_eq (h : view db' = view db) : Does P db none db' :=
  ⟨[], h ▸ Acts.nil _, rfl, by simp⟩

theorem Does.refl : Does P db none db := Does.of_view_eq rfl

theorem Does.act {a : Act} (hv : view db' = apply (view db) a) (he : Enabled (view db) a)
    (hP : P (view db) a) : Does P db a.started db' := by
  refine ⟨[a], hv ▸ Acts.single he hP, ?_, ?_⟩
  · cases h : a.started <;> simp [h]
  · intro x hx
    cases a <;> simp [Act.started] at hx
    next s t => exact ⟨[], t, by rw [hx]; rfl⟩

theorem Does.trans (h : Does P db none db') (h' : Does P db' s db'') : Does P db s db'' := by
  obtain ⟨as, h1, h2, -⟩ := h
  obtain ⟨bs, h3, h4, hlast⟩ := h'
  refine ⟨as ++ bs, h1.append h3, by simp [h2, h4], fun x hx => ?_⟩
  obtain ⟨cs, t, rfl⟩ := hlast x hx
  exact ⟨as ++ cs, t, (List.append_assoc ..).symm⟩

theorem Does.mono (hPQ : ∀ c a, P c a → Q c a) (h : Does P db s db') : Does Q db s db' := by
  obtain ⟨as, h1, h2⟩ := h
  exact ⟨as, h1.mono hPQ, h2⟩

theorem does_query (f : TaskDb → Except Err β) : Does P db none (query f db).2 := Does.refl

theorem does_transaction {body : TaskDb → Except Err (β × TaskDb)}
    (h : ∀ b db', body db = .ok (b, db') → db'.Constraints → Does P db none db') :
    Does P db none (transaction body db).2 := by
  rcases transaction_eq body db with ⟨b, db', hb, hc, he⟩ | ⟨e, he⟩
  · rw [he]; exact h b db' hb hc
  · rw [he]; exact Does.refl

theorem does_andThen_query {f : TaskDb → Except Err β} {k : β → TaskDb → Except Err γ × TaskDb}
    (h : ∀ b, f db = .ok b → Does P db none (k b db).2) :
    Does P db none (andThen (query f) k db).2 := by
  unfold andThen query
  split
  · next b db' he =>
    simp only [Prod.mk.injEq] at he
    obtain ⟨he, rfl⟩ := he
    exact h b he
  · next e db' he =>
    simp only [Prod.mk.injEq] at he
    exact he.2 ▸ Does.refl

theorem does_andThen {o : TaskDb → Except Err β × TaskDb} {k : β → TaskDb → Except Err γ × TaskDb}
    (ho : Does P db none (o db).2)
    (hk : ∀ b db', o db = (.ok b, db') → Does P db' none (k b db').2) :
    Does P db none (andThen o k db).2 := by
  unfold andThen
  split
  · next b db' he => rw [he] at ho; exact ho.trans (hk b db' he)
  · next e db' he => rw [he] at ho; exact ho

end Does

theorem transaction_ok {β : Type} {body : TaskDb → Except Err (β × TaskDb)} {b : β}
    (h : transaction body db = (.ok b, db')) : body db = .ok (b, db') ∧ db'.Constraints := commit_ok h

theorem replying_ok {β : Type} {f : β → Reply} {r : Except Err β × TaskDb} {x : Reply}
    (h : replying f r = (.ok x, db')) : ∃ b, r = (.ok b, db') ∧ f b = x := by
  obtain ⟨b | b, db''⟩ := r
  · simp [replying, Except.map] at h
  · simp only [replying, Except.map, Prod.mk.injEq, Except.ok.injEq] at h
    exact ⟨b, by rw [h.2], h.1⟩

/-! ### What a call may do -/

def flags (c : State) (i : Uuid) : Option Bool := (c.task i).map TaskCtl.cancelRequested

/-- **What the call on the tables `db` may do in the control state `c`.** -/
inductive MayDo (db : TaskDb) : Call → State → Act → Prop
  | create {env a w o ti gated ss m c t r deps} :
    MayDo db (.create env a w ti o gated ss m) c
      (.insert t r gated (insertedSteps env db (orDefault ss)) deps)
  | createResearch {env f a w ti q ss c t r steps deps} :
    MayDo db (.createResearch env f a w ti q ss) c (.insert t r false steps deps)
  | requestApproval {env t a c} : MayDo db (.requestApproval env t a) c (.gate t)
  | approve {env t a n so c} : MayDo db (.decide env t a true n so) c (.approve t)
  | deny {env t a n so c} : MayDo db (.decide env t a false n so) c (.deny t)
  | approveDesktop {env e k t n c} : MayDo db (.decideForExecutor env e k t true n) c (.approve t)
  | denyDesktop {env e k t n c} : MayDo db (.decideForExecutor env e k t false n) c (.deny t)
  | cancel {env t a idle c} : MayDo db (.cancel env t a) c (.cancel t idle)
  | retry {env t a gated c} : MayDo db (.retryTask env t a) c (.retry t gated)
  | requeueHosted {env w l ks c item} (h : item ∈ expiredHosted env.now db)
      (hc : c.step item.id = some (stepCtl item))
      (hf : flags (view db) item.taskId ≠ some true) :
    MayDo db (.claimOne env w l ks) c (.requeue item.id item.taskId)
  | dropHosted {env w l ks c s t} : MayDo db (.claimOne env w l ks) c (.drop s t)
  | gateHosted {env w l ks c t} : MayDo db (.claimOne env w l ks) c (.gate t)
  | startHosted {env w l ks c s t}
      (h : ∀ st tk, c.step s = some st → c.task t = some tk → st.kind = .desktop →
        tk.requiresApproval = true) :
    MayDo db (.claimOne env w l ks) c (.start s t)
  | requeueDesktop {env e k l safe loc c s t}
      (h : ∃ st, c.step s = some st ∧ st.kind = .desktop) :
    MayDo db (.claimForExecutor env e k l safe loc) c (.requeue s t)
  | dropDesktop {env e k l safe loc c s t} :
    MayDo db (.claimForExecutor env e k l safe loc) c (.drop s t)
  | expireDesktop {env e k l safe loc c s t} :
    MayDo db (.claimForExecutor env e k l safe loc) c (.expire s t)
  | autoApprove {env e k l safe loc c t} :
    MayDo db (.claimForExecutor env e k l safe loc) c (.approve t)
  | startDesktop {env e k l safe loc c s t} :
    MayDo db (.claimForExecutor env e k l safe loc) c (.start s t)
  | completeStep {env s a r ak an row e} (h : ownedStep s a db = some row) :
    MayDo db (.completeStep env s a r ak an) (view db) (.complete s row.taskId e)
  | failRetry {env s a er d r row} (h : ownedStep s a db = some row) (hr : Retries r row) :
    MayDo db (.failStep env s a er d r) (view db) (.failRetry s row.taskId)
  | failFinal {env s a er d r row} (h : ownedStep s a db = some row) (hr : ¬ Retries r row) :
    MayDo db (.failStep env s a er d r) (view db) (.failFinal s row.taskId)
  | completeDesktop {env x k s r c t e} (h : ∃ st, StepOf c s t st ∧ st.status = .running) :
    MayDo db (.completeExecutorStep env x k s r) c (.complete s t e)
  | dropReported {env x k s er c t} : MayDo db (.failExecutorStep env x k s er) c (.drop s t)
  | failRetryDesktop {env x k s er row} (h : leasedStep s x db = some row)
      (hr : Retries (row.requiredCapability = some "local_file_read") row)
      (hs : ∃ st, StepOf (view db) s row.taskId st ∧ st.status = .running)
      (hc : ∃ tk, (view db).task row.taskId = some tk ∧ tk.cancelRequested = false) :
    MayDo db (.failExecutorStep env x k s er) (view db) (.failRetry s row.taskId)
  | failFinalDesktop {env x k s er c t} (h : ∃ st, StepOf c s t st ∧ st.status = .running)
      (hc : ∃ tk, c.task t = some tk ∧ tk.cancelRequested = false) :
    MayDo db (.failExecutorStep env x k s er) c (.failFinal s t)
  | record {env t ty p m c} (h : markOf ty = some m) :
    MayDo db (.appendEvent env t ty p) c (.record t m)

/-- The call writes no event of the control history by hand. -/
def Unforged : Call → Prop
  | .appendEvent _ _ type _ => markOf type = none
  | _ => True

/-! ### Each call is a path -/

section Paths
variable {taskId : Uuid} {accountId : String}

theorem enabled_insert {task : Task} {runId : Uuid} {now : Time} {steps : List StepInput}
    (ht : Keyed Task.id (insertRows env task runId now steps db).tasks)
    (hr : Keyed TaskRun.id (insertRows env task runId now steps db).taskRuns)
    (hs : Keyed TaskStep.id (insertRows env task runId now steps db).taskSteps) (hne : steps ≠ [])
    (hd : ∀ step ∈ steps, ∀ parent ∈ step.dependsOn, parent < steps.length) (gated : Bool) :
    Enabled (view db) (.insert task.id runId gated (insertedSteps env db steps)
      (insertedDeps env db steps)) := by
  have hmem : ∀ i < steps.length, ∃ s ∈ insertedSteps env db steps, s.1 = stepIdAt env db i :=
    fun i hi => ⟨_, List.mem_map.mpr ⟨(steps[i], i),
      List.mem_zipIdx_iff_getElem?.mpr (List.getElem?_eq_getElem hi), rfl⟩, rfl⟩
  refine ⟨?_, ?_, ?_, ?_, ?_⟩
  · have := (keyed_append.mp ht).2.2
    simp only [view, Option.map_eq_none_iff, lookup_eq_none]
    exact fun t h => this t h task (List.mem_singleton_self _)
  · have := (keyed_append.mp hr).2.2
    simp only [view, Option.map_eq_none_iff, lookup_eq_none]
    exact fun r h => this r h _ (List.mem_singleton_self _)
  · have := (keyed_append.mp hs).2.2
    simp only [view, Option.map_eq_none_iff, lookup_eq_none, insertedSteps, List.mem_map]
    rintro _ ⟨⟨step, i⟩, hi, rfl⟩ r hr
    exact this r hr _ (List.mem_map.mpr ⟨(step, i), hi, rfl⟩)
  · simpa [insertedSteps] using hne
  · simp only [insertedDeps, dependencyRows, List.mem_map, List.mem_flatMap]
    rintro _ ⟨_, ⟨⟨step, i⟩, hi, parent, hp, rfl⟩, rfl⟩
    have hi := List.mem_zipIdx_iff_getElem?.mp hi
    exact ⟨hmem i (List.getElem?_eq_some_iff.mp hi).1,
      hmem parent (hd step (List.mem_of_getElem? hi) parent hp)⟩

theorem orDefault_ne_nil (ss : List StepInput) : orDefault ss ≠ [] := by
  unfold orDefault
  split_ifs with h
  · simp
  · exact h

theorem create_does (env : Env) (a w ti o : String) (gated : Bool) (ss : List StepInput)
    (m : ApprovalMode) :
    Does (MayDo db (.create env a w ti o gated ss m)) db none
      (Lifecycle.create env a w ti o gated ss m db).2 := by
  refine does_andThen (does_transaction fun t db' hb hc => ?_) fun _ _ _ => does_query _
  obtain ⟨task, -, -, -, rfl, hs, hcr, hp, rfl⟩ := insertTask_ok hb
  exact Does.act (view_insertRows _ _ _ _ hs hcr)
    (enabled_insert hc.tasks hc.taskRuns hc.taskSteps (orDefault_ne_nil ss) hp _) .create

theorem researchSteps_dependsOn (sources : List String) :
    ∀ step ∈ researchSteps sources, ∀ parent ∈ step.dependsOn,
      parent < (researchSteps sources).length := by
  unfold researchSteps
  split_ifs <;> decide

theorem createResearch_does (env : Env) (f : String → String) (a w ti q : String)
    (ss : List String) :
    Does (MayDo db (.createResearch env f a w ti q ss)) db none
      (createResearch env f a w ti q ss db).2 := by
  refine does_andThen (does_transaction fun t db' hb hc => ?_) fun _ _ _ => does_query _
  simp only [createResearchWrite, Except.ok.injEq, Prod.mk.injEq] at hb
  obtain ⟨-, rfl⟩ := hb
  refine Does.act ((view_logEvent_none rfl ..).trans (view_insertRows _ _ _ _ rfl rfl))
    (enabled_insert hc.tasks hc.taskRuns hc.taskSteps ?_ (researchSteps_dependsOn _) _)
    .createResearch
  unfold researchSteps
  split_ifs <;> simp

theorem requestApproval_does (h : db.Constraints) :
    Does (MayDo db (.requestApproval env taskId accountId)) db none
      (requestApproval env taskId accountId db).2 := by
  refine does_andThen_query fun task hget => ?_
  obtain ⟨ht, rfl, -⟩ := get_eq_ok hget
  split_ifs with h1 h2
  · exact does_query _
  · refine does_andThen (does_transaction fun u db' hb _ => ?_) fun _ _ _ => does_query _
    have hv := view_requestApprovalWrite (keys_of_constraints h) ht h2 hb
    refine Does.act hv ⟨taskCtl task, view_task_of_mem (keys_of_constraints h) ht, ?_, h2⟩
      .requestApproval
    simpa [taskCtl] using h1
  · exact does_query _

theorem decide_does (h : db.Constraints) (approved : Bool) (note source : String)
    {P : State → Act → Prop} (hP : ∀ c, P c (if approved then .approve taskId else .deny taskId)) :
    Does P db none (Lifecycle.decide env taskId accountId approved note source db).2 := by
  refine does_andThen_query fun _ hget => ?_
  cases hg : Lifecycle.get taskId accountId db with
  | error e => simp [hg, bind, Except.bind] at hget
  | ok task =>
    obtain ⟨ht, rfl, -⟩ := get_eq_ok hg
    have haw : AwaitsDecision (taskCtl task) := by
      simp only [hg, bind, Except.bind, decideGuard] at hget
      split_ifs at hget with hw
      exact hw
    refine does_andThen (does_transaction fun u db' hb _ => ?_) fun _ _ _ => does_query _
    have htk := view_task_of_mem (keys_of_constraints h) ht
    cases approved
    · exact Does.act (view_decideWrite hb) ⟨_, htk, haw⟩ (hP _)
    · exact Does.act (view_decideWrite hb) ⟨_, htk, haw⟩ (hP _)

theorem decideForExecutor_does (h : db.Constraints) (e : Uuid) (token : String) (approved : Bool)
    (note : String) :
    Does (MayDo db (.decideForExecutor env e token taskId approved note)) db none
      (decideForExecutor env e token taskId approved note db).2 := by
  refine does_andThen_query fun account _ => decide_does h approved _ _ fun c => ?_
  cases approved
  · exact .denyDesktop
  · exact .approveDesktop

theorem cancel_does (h : db.Constraints) :
    Does (MayDo db (.cancel env taskId accountId)) db none
      (Lifecycle.cancel env taskId accountId db).2 := by
  refine does_andThen_query fun task hget => ?_
  obtain ⟨ht, rfl, -⟩ := get_eq_ok hget
  split_ifs with h1
  · exact does_query _
  · refine does_andThen (does_transaction fun u db' hb _ => ?_) fun _ _ _ => does_query _
    obtain ⟨idle, hv, hidle⟩ := view_cancelWrite (keys_of_constraints h) hb
    exact Does.act hv ⟨⟨_, view_task_of_mem (keys_of_constraints h) ht, h1⟩, hidle⟩ .cancel

theorem retryGuard_eq_ok {gated : Bool} (h : retryGuard taskId accountId db = .ok gated) :
    ∃ task ∈ db.tasks, task.id = taskId ∧ task.accountId = accountId ∧ task.status = .failed ∧
      (∃ s ∈ db.taskSteps, s.taskId = taskId ∧ s.status = .failed) ∧
      (gated = true ↔ task.requiresApproval = true ∨
        ∃ s ∈ db.taskSteps, s.taskId = taskId ∧
          (s.executorKind = .desktop ∨ s.executorKind = .sandbox)) := by
  cases hg : Lifecycle.get taskId accountId db with
  | error e => simp [retryGuard, hg, bind, Except.bind] at h
  | ok task =>
    obtain ⟨ht, hid, ha⟩ := get_eq_ok hg
    simp only [retryGuard, hg, bind, Except.bind] at h
    by_cases hs : task.status = .failed
    · by_cases hf : ∃ s ∈ db.taskSteps.filter fun s => s.taskId = taskId, s.status = .failed
      · rw [if_neg (not_not.mpr hs)] at h
        simp only [pure, Except.pure, if_neg (not_not.mpr hf), Except.ok.injEq] at h
        refine ⟨task, ht, hid, ha, hs, by simpa [and_assoc] using hf, ?_⟩
        rw [← h]
        simp [and_assoc]
      · rw [if_neg (not_not.mpr hs)] at h
        simp only [pure, Except.pure, if_pos hf, throw, throwThe, MonadExceptOf.throw,
          reduceCtorEq] at h
    · simp [hs, throw, throwThe, MonadExceptOf.throw] at h

theorem retryTask_does (h : db.Constraints) :
    Does (MayDo db (.retryTask env taskId accountId)) db none
      (retryTask env taskId accountId db).2 := by
  refine does_andThen_query fun gated hget => ?_
  obtain ⟨task, ht, rfl, rfl, hs, ⟨s, hsm, hst, hsf⟩, hg⟩ := retryGuard_eq_ok hget
  refine does_andThen (does_transaction fun u db' hb _ => ?_) fun _ _ _ => does_query _
  have hk := keys_of_constraints h
  refine Does.act (view_retryWrite hk ht hb) ⟨_, view_task_of_mem hk ht, hs,
    ⟨s.id, _, (stepOf_iff hk).mpr ⟨s, hsm, rfl, hst, rfl⟩, hsf⟩, ?_⟩ .retry
  simp only [hg, stepOf_iff hk]
  refine or_congr_right ⟨?_, ?_⟩
  · rintro ⟨s, hs, ht, hk⟩; exact ⟨s.id, _, ⟨s, hs, rfl, ht, rfl⟩, hk⟩
  · rintro ⟨_, _, ⟨s, hs, rfl, ht, rfl⟩, hk⟩; exact ⟨s, hs, ht, hk⟩

end Paths

/-! ### Claims -/

section Claims

/-- A recovery of the step `s` of the task `t`. -/
def Recovers (a : Act) (s t : Uuid) : Prop := a = .drop s t ∨ a = .requeue s t ∨ a = .expire s t

theorem recovers_step {a : Act} {s t i : Uuid} (h : Recovers a s t) (c : State) (hi : i ≠ s) :
    (apply c a).step i = c.step i := by
  rcases h with rfl | rfl | rfl <;>
    simp [Control.apply, State.setStepStatus, State.setStep, State.setTaskStatus, State.setTask, hi]

theorem recovers_flags {a : Act} {s t : Uuid} (h : Recovers a s t) (c : State) :
    flags (apply c a) = flags c := by
  funext i
  unfold flags
  rcases h with rfl | rfl | rfl <;> cases hc : c.task i with
  | none =>
    simp [Control.apply, State.setStepStatus, State.setStep, State.setTaskStatus, State.setTask, hc]
  | some tk =>
    simp only [Control.apply, State.setStepStatus, State.setStep, State.setTaskStatus,
      State.setTask, mapTask_task, mapStep_task, hc, Option.map_some]
    split_ifs <;> rfl

theorem recovers_started {a : Act} {s t : Uuid} (h : Recovers a s t) : a.started = none := by
  rcases h with rfl | rfl | rfl <;> rfl

/-- **The recovery loops.** Each pass recovers the step of its row, and leaves the steps of the rows
to come and the cancellation requests as they were. -/
theorem recoveries_do {α : Type} {f : TaskDb → α → TaskDb} (row : α → TaskStep)
    (act : State → α → Act) {P : State → Act → Prop} {l : List α}
    (hkeys : ∀ x a, Keys (f x a) ↔ Keys x)
    (hview : ∀ x a, view (f x a) = apply (view x) (act (view x) a))
    (hact : ∀ c a, Recovers (act c a) (row a).id (row a).taskId)
    (hok : ∀ c, ∀ a ∈ l, c.step (row a).id = some (stepCtl (row a)) → flags c = flags (view db) →
      Enabled c (act c a) ∧ P c (act c a))
    (hk : Keys db) (hnodup : (l.map fun a => (row a).id).Nodup)
    (hmem : ∀ a ∈ l, row a ∈ db.taskSteps) :
    Does P db none (l.foldl f db) ∧ Keys (l.foldl f db) := by
  have := foldl_inv (f := f) (I := fun l' x => (∀ a ∈ l', a ∈ l) ∧
    (l'.map fun a => (row a).id).Nodup ∧ Does P db none x ∧ Keys x ∧
    (∀ a ∈ l', (view x).step (row a).id = some (stepCtl (row a))) ∧
    flags (view x) = flags (view db)) (l := l) (s := db) ?_
    ⟨fun _ h => h, hnodup, Does.refl, hk, fun a ha => view_step_of_mem hk (hmem a ha), rfl⟩
  · exact ⟨this.2.2.1, this.2.2.2.1⟩
  · rintro a l' x ⟨hsub, hnd, hdoes, hkx, hrows, hfl⟩
    simp only [List.map_cons, List.nodup_cons, List.mem_map, not_exists, not_and] at hnd
    obtain ⟨he, hP⟩ := hok (view x) a (hsub a (by simp)) (hrows a (by simp)) hfl
    have hpass := Does.act (hview x a) he hP
    rw [recovers_started (hact _ a)] at hpass
    refine ⟨fun b hb => hsub b (by simp [hb]), hnd.2, hdoes.trans hpass, (hkeys x a).mpr hkx,
      fun b hb => ?_, ?_⟩
    · rw [hview, recovers_step (hact _ a) _ (hnd.1 b hb)]
      exact hrows b (by simp [hb])
    · rw [hview, recovers_flags (hact _ a), hfl]

theorem hostedRecoveries_do (hk : Keys db) (env : Env) (w : String) (l : ℤ)
    (ks : List ExecutorKind) :
    Does (MayDo db (.claimOne env w l ks)) db none
        ((expiredHosted env.now db).foldl (recoverHosted env env.now) db) ∧
      Keys ((expiredHosted env.now db).foldl (recoverHosted env env.now) db) := by
  refine recoveries_do id recoverHostedAct (fun x a => keys_recoverHosted a)
    (fun x a => view_recoverHosted a) ?_ ?_ hk ?_ fun a ha => List.mem_of_mem_filter ha
  · intro c a
    unfold recoverHostedAct
    split_ifs
    · exact Or.inl rfl
    · exact Or.inr (Or.inl rfl)
  · intro c a ha hstep hfl
    have hrun : a.status = .running := (of_decide_eq_true (List.mem_filter.mp ha).2).1
    unfold recoverHostedAct
    split_ifs with hf
    · obtain ⟨tk, htk, hc⟩ := hf
      exact ⟨⟨⟨_, ⟨hstep, rfl⟩, hrun⟩, tk, htk, hc⟩, .dropHosted⟩
    · refine ⟨⟨⟨_, ⟨hstep, rfl⟩, hrun⟩, fun tk htk => ?_⟩, .requeueHosted ha hstep fun h => ?_⟩
      · by_contra hc
        exact hf ⟨tk, htk, by simpa using hc⟩
      · obtain ⟨tk, htk, hc⟩ := Option.map_eq_some_iff.mp (hfl ▸ h)
        exact hf ⟨tk, htk, hc⟩
  · exact hk.steps.sublist (List.Sublist.map _ List.filter_sublist)

theorem firstRow_joined {p : Task × TaskStep → Prop} [DecidablePred p] {t : Task} {s : TaskStep}
    (h : firstRow (joined db p) = some (t, s)) :
    t ∈ db.tasks ∧ s ∈ db.taskSteps ∧ s.taskId = t.id ∧ p (t, s) := by
  have := List.mem_filter.mp (mem_of_firstBy h)
  simpa [and_assoc] using this

theorem unblocked_view (hk : Keys db) {s : TaskStep} (h : Unblocked db s) (p : Uuid)
    (pst : StepCtl) (hd : (view db).dep s.id p) (hp : (view db).step p = some pst) :
    pst.status = .completed := by
  obtain ⟨parent, hm, rfl, rfl⟩ := (view_step_iff hk).mp hp
  by_contra hc
  exact h ⟨_, hd, parent, hm, rfl, rfl, hc⟩

theorem claimOne_does (h : db.Constraints) (w : String) (l : ℤ) (ks : List ExecutorKind) :
    Does (MayDo db (.claimOne env w l ks)) db (started db (.claimOne env w l ks))
      (step db (.claimOne env w l ks)) := by
  obtain ⟨hrec, hk⟩ := hostedRecoveries_do (keys_of_constraints h) env w l ks
  simp only [started, step, exec, replying, claimOne]
  rcases transaction_eq (claimOneWrite env w l ks) db with ⟨b, db', hb, -, he⟩ | ⟨e, he⟩
  · rw [he]
    simp only [claimOneWrite] at hb
    generalize (expiredHosted env.now db).foldl (recoverHosted env env.now) db = x at hb hrec hk
    split at hb
    · simp only [Except.ok.injEq, Prod.mk.injEq] at hb
      obtain ⟨rfl, rfl⟩ := hb
      exact hrec
    · next t s hready =>
      obtain ⟨ht, hs, hst, hstatus, hq, hkind, -, hun⟩ := firstRow_joined hready
      have htk := view_task_of_mem hk ht
      have hso : StepOf (view x) s.id t.id (stepCtl s) := ⟨view_step_of_mem hk hs, hst⟩
      split_ifs at hb with hgate
      · simp only [Except.ok.injEq, Prod.mk.injEq] at hb
        obtain ⟨rfl, rfl⟩ := hb
        refine hrec.trans (Does.act (a := .gate t.id) ?_ ⟨_, htk, hgate.1, hgate.2⟩ .gateHosted)
        rw [view_logEvent_none rfl, view_setTaskStatus, Control.apply]
      · simp only [Except.ok.injEq, Prod.mk.injEq] at hb
        obtain ⟨rfl, rfl⟩ := hb
        refine hrec.trans (Does.act (a := .start s.id t.id) (view_startStep _ _ _ _ _ _ _ rfl)
          ⟨⟨_, hso, hq⟩, ⟨_, htk, hstatus, hgate⟩, unblocked_view hk hun⟩ (.startHosted ?_))
        intro st tk hst' htk' hdesk
        obtain rfl : stepCtl s = st := by simpa [hso.1] using hst'
        obtain rfl : taskCtl t = tk := by simpa [htk] using htk'
        have hkind : ExecutorClause ks t s := hkind
        have hdesk : s.executorKind = .desktop := hdesk
        simpa [ExecutorClause, hdesk, taskCtl] using hkind
  · rw [he]; exact Does.refl

theorem nodup_joined (hk : Keys db) {p : Task × TaskStep → Prop} [DecidablePred p] :
    ((joined db p).map fun a => a.2.id).Nodup := by
  refine List.Nodup.map_on ?_
    ((List.Nodup.of_map _ hk.tasks).product (List.Nodup.of_map _ hk.steps) |>.filter _)
  rintro ⟨t, s⟩ hx ⟨t', s'⟩ hy he
  have hx := List.mem_filter.mp hx
  have hy := List.mem_filter.mp hy
  simp only [List.mem_product, decide_eq_true_eq] at hx hy
  obtain rfl : s = s' := hk.steps.eq_of_key hx.1.2 hy.1.2 he
  rw [hk.tasks.eq_of_key hx.1.1 hy.1.1 (hx.2.1.symm.trans hy.2.1)]

theorem desktopRecoveries_do (hk : Keys db) (env : Env) (e : Uuid) (k : String) (l : ℤ)
    (safe loc : Bool) :
    Does (MayDo db (.claimForExecutor env e k l safe loc)) db none
        ((expiredDesktop env.now db).foldl (recoverDesktop env env.now) db) ∧
      Keys ((expiredDesktop env.now db).foldl (recoverDesktop env env.now) db) := by
  have hitem : ∀ a ∈ expiredDesktop env.now db, a.1 ∈ db.tasks ∧ a.2 ∈ db.taskSteps ∧
      a.2.taskId = a.1.id ∧ a.2.status = .running ∧ a.2.executorKind = .desktop := fun a ha => by
    obtain ⟨hm, hp⟩ := List.mem_filter.mp ha
    obtain ⟨h1, h2, h3, -⟩ := of_decide_eq_true hp
    exact ⟨(List.mem_product.mp hm).1, (List.mem_product.mp hm).2, h1, h2, h3⟩
  refine recoveries_do Prod.snd (fun _ => recoverDesktopAct)
    (fun x a => keys_recoverDesktop a) (fun x a => view_recoverDesktop a) ?_ ?_ hk
    (nodup_joined hk) fun a ha => (hitem a ha).2.1
  · intro _ a
    unfold recoverDesktopAct
    split_ifs
    · exact Or.inl rfl
    · exact Or.inr (Or.inl rfl)
    · exact Or.inr (Or.inr rfl)
  · intro c a ha hstep hfl
    obtain ⟨ht, -, htid, hrun, hkind⟩ := hitem a ha
    have hflag : flags c a.2.taskId = some a.1.cancelRequested := by
      rw [hfl, htid, flags, view_task_of_mem hk ht]; rfl
    obtain ⟨tk, htk, htf⟩ := Option.map_eq_some_iff.mp hflag
    unfold recoverDesktopAct
    split_ifs with hc
    · exact ⟨⟨⟨_, ⟨hstep, rfl⟩, hrun⟩, tk, htk, htf.trans hc⟩, .dropDesktop⟩
    · refine ⟨⟨⟨_, ⟨hstep, rfl⟩, hrun⟩, fun tk' htk' => ?_⟩, .requeueDesktop ⟨_, hstep, hkind⟩⟩
      obtain rfl : tk = tk' := by simpa [htk] using htk'
      simpa [htf] using hc
    · exact ⟨⟨⟨_, ⟨hstep, rfl⟩, hrun, hkind⟩, tk, htk, by simpa [htf] using hc⟩, .expireDesktop⟩

theorem autoApprovals_do (hk : Keys db) {P : State → Act → Prop} (hP : ∀ c t, P c (.approve t))
    (env : Env) (accountId : String) (auto : Bool) {l : List Task} (hnodup : (l.map Task.id).Nodup)
    (hmem : ∀ t ∈ l, t ∈ db.tasks ∧ t.accountId = accountId ∧ AwaitsDecision (taskCtl t)) :
    Does P db none (l.foldl (autoApprove env env.now accountId auto) db) ∧
      Keys (l.foldl (autoApprove env env.now accountId auto) db) := by
  have := foldl_inv (f := autoApprove env env.now accountId auto)
    (I := fun l' x => (∀ t ∈ l', t ∈ l) ∧ (l'.map Task.id).Nodup ∧ Does P db none x ∧ Keys x ∧
      ∀ t ∈ l', t ∈ x.tasks) (l := l) (s := db) ?_
    ⟨fun _ h => h, hnodup, Does.refl, hk, fun t ht => (hmem t ht).1⟩
  · exact ⟨this.2.2.1, this.2.2.2.1⟩
  · rintro t l' x ⟨hsub, hnd, hdoes, hkx, hrows⟩
    simp only [List.map_cons, List.nodup_cons, List.mem_map, not_exists, not_and] at hnd
    obtain ⟨-, ha, haw⟩ := hmem t (hsub t (by simp))
    have ht : t ∈ x.tasks := hrows t (by simp)
    have hv := view_autoApprove hkx ht ha haw.1 env env.now auto
    refine ⟨fun b hb => hsub b (by simp [hb]), hnd.2,
      hdoes.trans (Does.act hv ⟨_, view_task_of_mem hkx ht, haw⟩ (hP _ _)), ?_, fun b hb => ?_⟩
    · exact (keys_logEvent ..).mpr ((keys_updTasks (by intros; rfl)).mpr
        ((keys_setApproval ..).mpr hkx))
    · exact mem_updateWhere.mpr ⟨b, hrows b (by simp [hb]), if_neg fun hb' => hnd.1 b hb hb'.1⟩

theorem claimForExecutorWrite_does (h : db.Constraints) (e : Uuid) (k : String) (ex : Executor)
    (l : ℤ) (safe loc : Bool) :
    Does (MayDo db (.claimForExecutor env e k l safe loc)) db
      (leasedBy (replying .claim (transaction (claimForExecutorWrite env ex l safe loc) db)).1)
      (transaction (claimForExecutorWrite env ex l safe loc) db).2 := by
  obtain ⟨hrec, hk⟩ := desktopRecoveries_do (keys_of_constraints h) env e k l safe loc
  rcases transaction_eq (claimForExecutorWrite env ex l safe loc) db
    with ⟨b, db', hb, -, he⟩ | ⟨_, he⟩
  · rw [he]
    simp only [claimForExecutorWrite] at hb
    generalize (expiredDesktop env.now db).foldl (recoverDesktop env env.now) db = x
      at hb hrec hk
    -- the candidates are read once, before the first of them is approved
    generalize hl : (if (safe || loc) = true then x.tasks.filter fun t =>
      AutoApprovable ex.capabilities loc ex.accountId x t else []) = cs at hb
    have hcs : (cs.map Task.id).Nodup ∧ ∀ t ∈ cs, t ∈ x.tasks ∧ t.accountId = ex.accountId ∧
        AwaitsDecision (taskCtl t) := by
      rw [← hl]
      split_ifs
      · refine ⟨hk.tasks.sublist (List.Sublist.map _ List.filter_sublist), fun t ht => ?_⟩
        obtain ⟨h1, h2, h3, -⟩ := of_decide_eq_true (List.mem_filter.mp ht).2
        exact ⟨List.mem_of_mem_filter ht, h1, h3, h2⟩
      · simp
    obtain ⟨happ, hk'⟩ := autoApprovals_do hk (P := MayDo db (.claimForExecutor env e k l safe loc))
      (fun _ _ => .autoApprove) env ex.accountId loc hcs.1 hcs.2
    generalize cs.foldl (autoApprove env env.now ex.accountId loc) x = y at hb happ hk'
    split at hb
    · simp only [Except.ok.injEq, Prod.mk.injEq] at hb
      obtain ⟨rfl, rfl⟩ := hb
      exact hrec.trans happ
    · next t s hready =>
      obtain ⟨ht, hs, hst, -, -, hstatus, happr, hq, -, -, hun, -⟩ := firstRow_joined hready
      simp only [Except.ok.injEq, Prod.mk.injEq] at hb
      obtain ⟨rfl, rfl⟩ := hb
      refine hrec.trans (happ.trans (Does.act (a := .start s.id t.id)
        (view_startStep _ _ _ _ _ _ _ rfl) ⟨⟨_, ⟨view_step_of_mem hk' hs, hst⟩, hq⟩,
          ⟨_, view_task_of_mem hk' ht, hstatus, fun hg => ?_⟩, unblocked_view hk' hun⟩
        .startDesktop))
      exact Bool.false_ne_true (happr.symm.trans hg.1)
  · rw [he]; exact Does.refl

theorem claimForExecutor_does (h : db.Constraints) (e : Uuid) (k : String) (l : ℤ)
    (safe loc : Bool) :
    Does (MayDo db (.claimForExecutor env e k l safe loc))
      db (started db (.claimForExecutor env e k l safe loc))
      (step db (.claimForExecutor env e k l safe loc)) := by
  have hwrite := fun ex => (claimForExecutorWrite_does h e k ex l safe loc :
    Does (MayDo db (.claimForExecutor env e k l safe loc)) db _ _)
  simp only [started, step, exec, claimForExecutor, andThen, query]
  cases executor e k db with
  | error => exact Does.refl
  | ok ex => exact hwrite ex

end Claims

/-! ### Reports -/

section Reports
variable {P : State → Act → Prop} {stepId : Uuid} {accountId : String}

theorem completeStep_does (h : db.Constraints) (result : String) (kind name : Option String)
    (hP : ∀ row e, ownedStep stepId accountId db = some row →
      P (view db) (.complete stepId row.taskId e)) :
    Does P db none (completeStep env stepId accountId result kind name db).2 := by
  refine does_transaction fun u db' hb _ => ?_
  have hk := keys_of_constraints h
  cases hrow : ownedStep stepId accountId db with
  | none => simp [completeStepWrite, hrow] at hb
  | some row =>
    obtain ⟨e, tk, hv, htk, he⟩ := view_completeStepWrite hk hrow hb
    obtain ⟨hm, rfl, -⟩ := ownedStep_eq_some hrow
    exact Does.act hv ⟨_, tk, stepOf_of_mem hk hm, htk, he⟩ (hP row e hrow)

theorem failStep_does (h : db.Constraints) (error : String) (delay : ℤ) (retryable : Bool)
    (hr : ∀ row, ownedStep stepId accountId db = some row → Retries retryable row →
      P (view db) (.failRetry stepId row.taskId))
    (hf : ∀ row, ownedStep stepId accountId db = some row → ¬ Retries retryable row →
      P (view db) (.failFinal stepId row.taskId)) :
    Does P db none (failStep env stepId accountId error delay retryable db).2 := by
  refine does_transaction fun o db' hb _ => ?_
  have hk := keys_of_constraints h
  cases hrow : ownedStep stepId accountId db with
  | none => simp [failStepWrite, hrow] at hb
  | some row =>
    obtain ⟨hm, hid, t, ht, htid, -⟩ := ownedStep_eq_some hrow
    have hso : StepOf (view db) stepId row.taskId (stepCtl row) := hid ▸ stepOf_of_mem hk hm
    have htk : (view db).task row.taskId = some (taskCtl t) := htid ▸ view_task_of_mem hk ht
    rcases view_failStepWrite hrow hb with ⟨-, hatt, hv⟩ | ⟨-, hatt, hv⟩
    · exact Does.act hv ⟨_, _, hso, htk, hatt.lt_maxAttempts⟩ (hr row hrow hatt)
    · exact Does.act hv ⟨_, _, hso, htk⟩ (hf row hrow hatt)

theorem leasedStep_eq_some {e : Uuid} {row : TaskStep} (h : leasedStep stepId e db = some row) :
    row ∈ db.taskSteps ∧ row.id = stepId ∧ row.leaseOwner = some (.executor e) ∧
      row.status = .running :=
  ⟨List.mem_of_find?_eq_some h, by simpa using List.find?_some h⟩

theorem completeExecutorStep_does (h : db.Constraints) (e : Uuid) (token result : String) :
    Does (MayDo db (.completeExecutorStep env e token stepId result)) db none
      (completeExecutorStep env e token stepId result db).2 := by
  refine does_andThen_query fun ex _ => ?_
  refine does_andThen (does_transaction fun t db' hb _ => ?_) fun t db' hb => ?_
  · unfold completeExecutorCheck at hb
    split at hb
    · simp at hb
    · simp only [Except.ok.injEq, Prod.mk.injEq] at hb
      exact hb.2 ▸ Does.of_view_eq (view_closeLease ..)
  · obtain ⟨hb, hc⟩ := transaction_ok hb
    unfold completeExecutorCheck at hb
    split at hb
    · simp at hb
    · next row hrow =>
      simp only [Except.ok.injEq, Prod.mk.injEq] at hb
      obtain ⟨rfl, rfl⟩ := hb
      refine does_andThen_query fun task _ => completeStep_does hc _ _ _ fun row' e hrow' => ?_
      obtain ⟨hm, hid, -, hrun⟩ := leasedStep_eq_some hrow
      obtain ⟨hm', hid', -⟩ := ownedStep_eq_some hrow'
      obtain rfl : row = row' := h.taskSteps.eq_of_key hm hm' (hid.trans hid'.symm)
      exact .completeDesktop ⟨_, hid ▸ stepOf_of_mem (keys_of_constraints h) hm, hrun⟩

theorem failExecutorCheck_ok {e : Uuid} {error : String} {cancelled retryable : Bool}
    (h : failExecutorCheck env e stepId error db = .ok ((cancelled, retryable), db')) :
    ∃ row t, leasedStep stepId e db = some row ∧ lookup Task.id row.taskId db.tasks = some t ∧
      cancelled = t.cancelRequested ∧
      retryable = Decidable.decide (row.requiredCapability = some "local_file_read") ∧
      (cancelled = true → view db' = apply (view db) (.drop stepId row.taskId)) ∧
      (cancelled = false → db' = closeLease stepId e env.now db) := by
  unfold failExecutorCheck at h
  split at h
  · simp at h
  · next row hrow =>
    split at h
    · simp at h
    · next t ht =>
      refine ⟨row, t, hrow, ht, ?_⟩
      split_ifs at h with hc
      · simp only [Except.ok.injEq, Prod.mk.injEq] at h
        obtain ⟨⟨rfl, rfl⟩, rfl⟩ := h
        refine ⟨hc.symm, rfl, fun _ => ?_, fun h => absurd h (by simp)⟩
        rw [view_logEvent_none rfl, view_setTaskStatus, view_setRunStatus, view_releaseStep,
          view_closeLease, Control.apply]
      · simp only [Except.ok.injEq, Prod.mk.injEq] at h
        obtain ⟨⟨rfl, rfl⟩, rfl⟩ := h
        exact ⟨by simpa using hc, rfl, fun h => absurd h (by simp), fun _ => rfl⟩

theorem failExecutorStep_does (h : db.Constraints) (e : Uuid) (token error : String) :
    Does (MayDo db (.failExecutorStep env e token stepId error)) db none
      (failExecutorStep env e token stepId error db).2 := by
  have hk := keys_of_constraints h
  have hstep : ∀ row, leasedStep stepId e db = some row →
      StepOf (view db) stepId row.taskId (stepCtl row) ∧ (stepCtl row).status = .running :=
    fun row hrow => by
      obtain ⟨hm, hid, -, hrun⟩ := leasedStep_eq_some hrow
      exact ⟨hid ▸ stepOf_of_mem hk hm, hrun⟩
  have htask : ∀ i t, lookup Task.id i db.tasks = some t → (view db).task i = some (taskCtl t) :=
    fun i t ht => by simp [view, ht]
  refine does_andThen_query fun ex _ => ?_
  refine does_andThen (does_transaction fun o db' hb _ => ?_) fun o db' hb => ?_
  · obtain ⟨cancelled, retryable⟩ := o
    obtain ⟨row, t, hrow, ht, rfl, -, hdrop, hopen⟩ := failExecutorCheck_ok hb
    cases hc : t.cancelRequested with
    | true =>
      exact Does.act (hdrop hc) ⟨⟨_, hstep row hrow⟩, _, htask _ t ht, hc⟩ .dropReported
    | false => exact hopen hc ▸ Does.of_view_eq (view_closeLease ..)
  · obtain ⟨cancelled, retryable⟩ := o
    obtain ⟨hb, hc⟩ := transaction_ok hb
    obtain ⟨row, t, hrow, ht, rfl, rfl, -, hopen⟩ := failExecutorCheck_ok hb
    dsimp only
    cases hcr : t.cancelRequested with
    | true => exact does_query _
    | false =>
      obtain rfl := hopen hcr
      have hrow' : ∀ row', ownedStep stepId ex.accountId (closeLease stepId e env.now db) =
          some row' → row' = row := fun row' hrow' => by
        obtain ⟨hm, hid, -⟩ := leasedStep_eq_some hrow
        obtain ⟨hm', hid', -⟩ := ownedStep_eq_some hrow'
        exact h.taskSteps.eq_of_key hm' hm (hid'.trans hid.symm)
      refine failStep_does hc error 30 _ (fun row' hr hretry => ?_) fun row' hr _ => ?_ <;>
      obtain rfl := hrow' row' hr
      · rw [view_closeLease]
        exact .failRetryDesktop hrow hretry ⟨_, hstep _ hrow⟩ ⟨_, htask _ t ht, hcr⟩
      · exact .failFinalDesktop ⟨_, hstep _ hrow⟩ ⟨_, htask _ t ht, hcr⟩

end Reports

/-! ### All calls -/

theorem does_replying {β : Type} {f : β → Reply} {r : Except Err β × TaskDb}
    {P : State → Act → Prop} (hf : ∀ b, leasedBy (.ok (f b)) = none) (h : Does P db none r.2) :
    Does P db (leasedBy (replying f r).1) (replying f r).2 := by
  obtain ⟨b | b, db'⟩ := r
  · exact h
  · exact (hf b).symm ▸ h

theorem does_writing {β : Type} {body : TaskDb → Except Err (β × TaskDb)} {P : State → Act → Prop}
    (h : ∀ b db', body db = .ok (b, db') → view db' = view db) :
    Does P db none (transaction body db).2 :=
  does_transaction fun b db' hb _ => Does.of_view_eq (h b db' hb)

theorem heartbeatExecutorStep_does {P : State → Act → Prop} (env : Env) (e : Uuid) (token : String)
    (s : Uuid) (l : ℤ) : Does P db none (heartbeatExecutorStep env e token s l db).2 := by
  refine does_andThen_query fun _ _ => does_writing fun b db' hb => ?_
  unfold heartbeatWrite at hb
  dsimp only at hb
  split at hb
  · simp at hb
  split at hb
  · simp at hb
  split_ifs at hb
  · simp only [Except.ok.injEq, Prod.mk.injEq] at hb
    rw [hb.2]
  · simp only [Except.ok.injEq, Prod.mk.injEq] at hb
    rw [← hb.2, view_updLeases]
    refine (view_updSteps (fun _ x => x) (by intros; rfl) fun x _ => ?_).trans ?_
    · split_ifs <;> rfl
    · simp [State.mapStep]

theorem appendEvent_does (env : Env) (t : Uuid) (type : String) (payload : Payload) :
    Does (MayDo db (.appendEvent env t type payload)) db none
      (appendEvent env t type payload db).2 := by
  refine does_transaction fun u db' hb _ => ?_
  simp only [Except.ok.injEq, Prod.mk.injEq, true_and] at hb
  subst hb
  cases hm : markOf type with
  | none => exact Does.of_view_eq (view_logEvent_none hm ..)
  | some m =>
    exact Does.act (a := .record t m) (view_logEvent_some hm ..) trivial (.record hm)

theorem createArtifact_does {P : State → Act → Prop} (env : Env) (t : Uuid)
    (a kind name content : String) :
    Does P db none (createArtifact env t a kind name content db).2 := by
  refine does_andThen_query fun _ _ => does_andThen (does_writing fun _ db' hb => ?_)
    fun _ db' _ => does_writing fun _ db'' hb => ?_
  · simp only [Except.ok.injEq, Prod.mk.injEq, true_and] at hb
    exact hb ▸ view_addArtifact ..
  · simp only [Except.ok.injEq, Prod.mk.injEq, true_and] at hb
    exact hb ▸ view_logEvent_none rfl ..

theorem appendExecutorProgress_does {P : State → Act → Prop} (env : Env) (e : Uuid)
    (token : String) (s : Uuid) (message : String) :
    Does P db none (appendExecutorProgress env e token s message db).2 := by
  refine does_andThen_query fun _ _ => ?_
  split_ifs
  · exact does_query _
  · refine does_writing fun _ db' hb => ?_
    split at hb
    · simp at hb
    · simp only [Except.ok.injEq, Prod.mk.injEq, true_and] at hb
      exact hb ▸ view_logEvent_none rfl ..

theorem does_of_ok {P : State → Act → Prop} {w : TaskDb → TaskDb} (h : view (w db) = view db) :
    Does P db none (transaction (fun x => .ok ((), w x)) db).2 :=
  does_writing fun _ db' hb => by
    simp only [Except.ok.injEq, Prod.mk.injEq, true_and] at hb
    exact hb ▸ h

/-- **Refinement.** Every call is a path of enabled acts that it may do, which starts exactly the
step that the call hands out. -/
theorem call_path (h : db.Constraints) (call : Call) :
    Does (MayDo db call) db (started db call) (step db call) := by
  cases call with
  | create env a w t o r ss m => exact does_replying (fun _ => rfl) (create_does env a w t o r ss m)
  | createResearch env f a w t q ss =>
    exact does_replying (fun _ => rfl) (createResearch_does env f a w t q ss)
  | requestApproval env t a => exact does_replying (fun _ => rfl) (requestApproval_does h)
  | decide env t a ok n s =>
    refine does_replying (fun _ => rfl) (decide_does h ok n s fun c => ?_)
    cases ok
    · exact .deny
    · exact .approve
  | decideForExecutor env e k t ok n =>
    exact does_replying (fun _ => rfl) (decideForExecutor_does h e k ok n)
  | cancel env t a => exact does_replying (fun _ => rfl) (cancel_does h)
  | retryTask env t a => exact does_replying (fun _ => rfl) (retryTask_does h)
  | claimOne env w l ks => exact claimOne_does h w l ks
  | claimForExecutor env e k l safe loc => exact claimForExecutor_does h e k l safe loc
  | completeStep env s a r ak an =>
    exact does_replying (fun _ => rfl) (completeStep_does h r ak an fun _ _ hr => .completeStep hr)
  | failStep env s a e d r =>
    exact does_replying (fun _ => rfl)
      (failStep_does h e d r (fun _ hr => .failRetry hr) fun _ hr => .failFinal hr)
  | completeExecutorStep env e k s r =>
    exact does_replying (fun _ => rfl) (completeExecutorStep_does h e k r)
  | failExecutorStep env e k s err =>
    exact does_replying (fun _ => rfl) (failExecutorStep_does h e k err)
  | heartbeatExecutorStep env e k s l =>
    exact does_replying (fun _ => rfl) (heartbeatExecutorStep_does env e k s l)
  | appendExecutorProgress env e k s m =>
    exact does_replying (fun _ => rfl) (appendExecutorProgress_does env e k s m)
  | appendEvent env t ty p => exact does_replying (fun _ => rfl) (appendEvent_does env t ty p)
  | createArtifact env t a k n c =>
    exact does_replying (fun _ => rfl) (createArtifact_does env t a k n c)
  | addEvidence env t a u ti =>
    refine does_replying (fun _ => rfl) (does_andThen_query fun _ _ => does_writing fun _ _ hb => ?_)
    split_ifs at hb <;>
    · simp only [Except.ok.injEq, Prod.mk.injEq] at hb
      exact hb.2 ▸ rfl
  | updateEvidence e t s ti => exact does_replying (fun _ => rfl) (does_of_ok rfl)
  | createExecutorPairing env c a n cs => exact does_replying (fun _ => rfl) (does_of_ok rfl)
  | pairExecutor env c k =>
    refine does_replying (fun _ => rfl) (does_writing fun _ _ hb => ?_)
    split at hb
    · simp at hb
    · simp only [Except.ok.injEq, Prod.mk.injEq] at hb
      exact hb.2 ▸ rfl
  | heartbeatExecutor env e k cs =>
    refine does_replying (fun _ => rfl) (does_andThen_query fun _ _ => ?_)
    split_ifs
    · exact does_query _
    · exact does_of_ok rfl
  | revokeExecutor e a =>
    refine does_replying (fun _ => rfl) (does_andThen (does_writing fun _ _ hb => ?_)
      fun _ _ _ => does_query _)
    simp only [Except.ok.injEq, Prod.mk.injEq] at hb
    exact hb.2 ▸ rfl
  | revokeExecutorWithToken e k =>
    refine does_replying (fun _ => rfl) (does_andThen (does_writing fun _ _ hb => ?_)
      fun _ _ _ => does_query _)
    simp only [Except.ok.injEq, Prod.mk.injEq] at hb
    exact hb.2 ▸ rfl

theorem inv_step {I : State → Prop} (h : db.Constraints) {call : Call}
    (hact : ∀ c a, I c → Enabled c a → MayDo db call c a → I (apply c a)) (hI : I (view db)) :
    I (view (step db call)) := by
  obtain ⟨as, hp, -⟩ := call_path h call
  exact hp.inv hact hI

theorem started_spec {I : State → Prop} (h : db.Constraints) {call : Call}
    (hact : ∀ c a, I c → Enabled c a → MayDo db call c a → I (apply c a)) (hI : I (view db))
    {s : Uuid} (hs : started db call = some s) :
    ∃ c t, I c ∧ Enabled c (.start s t) ∧ MayDo db call c (.start s t) ∧
      view (step db call) = apply c (.start s t) := by
  obtain ⟨as, hp, -, hlast⟩ := call_path h call
  obtain ⟨bs, t, rfl⟩ := hlast s hs
  obtain ⟨hbs, hstart⟩ := along_append.mp hp.1
  refine ⟨run apply (view db) bs, t, Acts.inv hact ⟨hbs, rfl⟩ hI, hstart.1.1, hstart.1.2, ?_⟩
  rw [← hp.2, run_append]
  rfl

end Smara.TaskStore.Refine
