import Smara.Store.Schedules

/-! # Deletion of an account

`delete_account` deletes table by table, first what belongs to the tasks of the account. Schedules, skills, the
pairings and the device requests of the command line stay; and a schedule that stays goes on to create tasks.

* `Row`, `owns`: the rows of all tables, and the accounts that a row belongs to, directly or through what it refers to.
* `deletes`: the rows that the call deletes.
* `deleteAccount_iff`: when the deletion is complete and confined to the account. -/

namespace Smara.Store.Deletion

open Lib.Table Lib.Transaction Lib.Page
open TaskStore.Schema TaskStore.Effects
open Store.Schema Store.Schedules

def taskIds (st : StoreDb) (accountId : String) : List Uuid :=
  (st.tasks.tasks.filter (·.accountId = accountId)).map Task.id

def stepIds (st : StoreDb) (accountId : String) : List Uuid :=
  (st.tasks.taskSteps.filter (·.taskId ∈ taskIds st accountId)).map TaskStep.id

def connectionIds (st : StoreDb) (accountId : String) : List Uuid :=
  (st.connections.filter (·.accountId = accountId)).map Connection.id

/-- The statements of `delete_account` -/
def deleteRows (accountId : String) (st : StoreDb) : StoreDb :=
  { st with
    tasks := { st.tasks with
      executorLeases := deleteWhere (fun r => r.stepId ∈ stepIds st accountId) st.tasks.executorLeases
      taskStepDependencies := deleteWhere
        (fun r => r.stepId ∈ stepIds st accountId ∨ r.dependsOnStepId ∈ stepIds st accountId)
        st.tasks.taskStepDependencies
      approvals := deleteWhere (fun r => r.taskId ∈ taskIds st accountId) st.tasks.approvals
      taskEvents := deleteWhere (fun r => r.taskId ∈ taskIds st accountId) st.tasks.taskEvents
      artifacts := deleteWhere (fun r => r.taskId ∈ taskIds st accountId) st.tasks.artifacts
      researchEvidence := deleteWhere (fun r => r.taskId ∈ taskIds st accountId) st.tasks.researchEvidence
      taskDeadLetters := deleteWhere (fun r => r.taskId ∈ taskIds st accountId) st.tasks.taskDeadLetters
      taskSteps := deleteWhere (fun r => r.taskId ∈ taskIds st accountId) st.tasks.taskSteps
      taskRuns := deleteWhere (fun r => r.taskId ∈ taskIds st accountId) st.tasks.taskRuns
      desktopExecutors := deleteWhere (fun r => r.accountId = accountId) st.tasks.desktopExecutors
      executorPairings := deleteWhere (fun r => r.accountId = accountId) st.tasks.executorPairings
      tasks := deleteWhere (fun r => r.accountId = accountId) st.tasks.tasks }
    credentials := deleteWhere (fun r => r.connectionId ∈ connectionIds st accountId) st.credentials
    actions := deleteWhere (fun r => r.accountId = accountId) st.actions
    oauthStates := deleteWhere (fun r => r.accountId = accountId) st.oauthStates
    connections := deleteWhere (fun r => r.accountId = accountId) st.connections
    pushSubscriptions := deleteWhere (fun r => r.accountId = accountId) st.pushSubscriptions
    notifications := deleteWhere (fun r => r.accountId = accountId) st.notifications
    turns := deleteWhere (fun r => r.accountId = accountId) st.turns
    memoryFacts := deleteWhere (fun r => r.accountId = accountId) st.memoryFacts
    conversations := deleteWhere (fun r => r.accountId = accountId) st.conversations
    cliDevices := deleteWhere (fun r => r.accountId = accountId) st.cliDevices }

/-- What SQLite raises for a statement with too many placeholders. -/
inductive Refusal
  | operationalError
  deriving DecidableEq, Repr

/-- **`delete_account`**, with the number of placeholders that SQLite takes: one for each task, and two for each step
where dependencies are deleted. No key can be violated by it. -/
def deleteAccount (slots : ℕ) (accountId : String) (st : StoreDb) : Except Refusal Unit × StoreDb :=
  if (taskIds st accountId).length ≤ slots ∧ 2 * (stepIds st accountId).length ≤ slots then
    (.ok (), deleteRows accountId st)
  else (.error .operationalError, st)

/-! ### Rows and their accounts -/

inductive Row
  | task (row : Task) | event (row : TaskEvent) | approval (row : Approval) | run (row : TaskRun) | step (row : TaskStep)
  | dependency (row : Dependency) | evidence (row : Evidence) | artifact (row : Artifact) | executor (row : Executor)
  | pairing (row : Pairing) | lease (row : ExecutorLease) | deadLetter (row : DeadLetter) | connection (row : Connection)
  | action (row : IntegrationAction) | credential (row : Credential) | oauthState (row : OauthState)
  | pushSubscription (row : PushSubscription) | notification (row : Notification) | conversation (row : Conversation)
  | turn (row : Turn) | memoryFact (row : MemoryFact) | cliPairing (row : CliPairing)
  | cliDeviceRequest (row : CliDeviceRequest) | cliDevice (row : CliDevice) | schedule (row : Schedule)
  | skill (row : Skill)

def tables (st : StoreDb) : List (List Row) :=
  [st.tasks.tasks.map .task, st.tasks.taskEvents.map .event, st.tasks.approvals.map .approval,
    st.tasks.taskRuns.map .run, st.tasks.taskSteps.map .step, st.tasks.taskStepDependencies.map .dependency,
    st.tasks.researchEvidence.map .evidence, st.tasks.artifacts.map .artifact, st.tasks.desktopExecutors.map .executor,
    st.tasks.executorPairings.map .pairing, st.tasks.executorLeases.map .lease, st.tasks.taskDeadLetters.map .deadLetter,
    st.connections.map .connection, st.actions.map .action, st.credentials.map .credential,
    st.oauthStates.map .oauthState, st.pushSubscriptions.map .pushSubscription, st.notifications.map .notification,
    st.conversations.map .conversation, st.turns.map .turn, st.memoryFacts.map .memoryFact,
    st.cliPairings.map .cliPairing, st.cliDeviceRequests.map .cliDeviceRequest, st.cliDevices.map .cliDevice,
    st.schedules.map .schedule, st.skills.map .skill]

def rows (st : StoreDb) : List Row := (tables st).flatten

def runIds (st : StoreDb) (accountId : String) : List Uuid :=
  (st.tasks.taskRuns.filter (·.taskId ∈ taskIds st accountId)).map TaskRun.id

def ownStepIds (st : StoreDb) (accountId : String) : List Uuid :=
  (st.tasks.taskSteps.filter fun s => s.taskId ∈ taskIds st accountId ∨ s.taskRunId ∈ runIds st accountId).map TaskStep.id

def conversationIds (st : StoreDb) (accountId : String) : List String :=
  (st.conversations.filter (·.accountId = accountId)).map Conversation.id

/-- The row belongs to the account, directly or through a task, a step, a run, a connection or a conversation of the
account. -/
def owns (st : StoreDb) (accountId : String) : Row → Bool
  | .task r => r.accountId = accountId
  | .event r => r.taskId ∈ taskIds st accountId
  | .approval r => r.taskId ∈ taskIds st accountId
  | .run r => r.taskId ∈ taskIds st accountId
  | .step r => r.taskId ∈ taskIds st accountId ∨ r.taskRunId ∈ runIds st accountId
  | .dependency r => r.stepId ∈ ownStepIds st accountId ∨ r.dependsOnStepId ∈ ownStepIds st accountId
  | .evidence r => r.taskId ∈ taskIds st accountId
  | .artifact r => r.taskId ∈ taskIds st accountId
  | .executor r => r.accountId = accountId
  | .pairing r => r.accountId = accountId
  | .lease r => r.stepId ∈ ownStepIds st accountId
  | .deadLetter r =>
    r.accountId = accountId ∨ r.taskId ∈ taskIds st accountId ∨ r.stepId ∈ ownStepIds st accountId
  | .connection r => r.accountId = accountId
  | .action r => r.accountId = accountId ∨ r.connectionId ∈ connectionIds st accountId
  | .credential r => r.connectionId ∈ connectionIds st accountId
  | .oauthState r => r.accountId = accountId
  | .pushSubscription r => r.accountId = accountId
  | .notification r => r.accountId = accountId
  | .conversation r => r.accountId = accountId
  | .turn r => r.accountId = accountId ∨ r.conversationId ∈ conversationIds st accountId
  | .memoryFact r => r.accountId = accountId
  | .cliPairing r => r.accountId = accountId
  | .cliDeviceRequest r => r.accountId = some accountId
  | .cliDevice r => r.accountId = accountId
  | .schedule r => r.accountId = accountId
  | .skill r => r.accountId = accountId

def deletes (st : StoreDb) (accountId : String) : Row → Bool
  | .task r => r.accountId = accountId
  | .event r => r.taskId ∈ taskIds st accountId
  | .approval r => r.taskId ∈ taskIds st accountId
  | .run r => r.taskId ∈ taskIds st accountId
  | .step r => r.taskId ∈ taskIds st accountId
  | .dependency r => r.stepId ∈ stepIds st accountId ∨ r.dependsOnStepId ∈ stepIds st accountId
  | .evidence r => r.taskId ∈ taskIds st accountId
  | .artifact r => r.taskId ∈ taskIds st accountId
  | .executor r => r.accountId = accountId
  | .pairing r => r.accountId = accountId
  | .lease r => r.stepId ∈ stepIds st accountId
  | .deadLetter r => r.taskId ∈ taskIds st accountId
  | .connection r => r.accountId = accountId
  | .action r => r.accountId = accountId
  | .credential r => r.connectionId ∈ connectionIds st accountId
  | .oauthState r => r.accountId = accountId
  | .pushSubscription r => r.accountId = accountId
  | .notification r => r.accountId = accountId
  | .conversation r => r.accountId = accountId
  | .turn r => r.accountId = accountId
  | .memoryFact r => r.accountId = accountId
  | .cliDevice r => r.accountId = accountId
  | .cliPairing _ | .cliDeviceRequest _ | .schedule _ | .skill _ => false

/-! ### What the deletion is to do -/

/-- What may come later: calls of `fire_due_schedules`, and anything else that creates no schedule of the account. -/
inductive Later (accountId : String) (st : StoreDb) : StoreDb → Prop
  | refl : Later accountId st st
  | fire {st' : StoreDb} (env : Env) (limit : ℕ) (h : Later accountId st st') :
    Later accountId st (fireDueSchedules env limit st').2
  | other {st' : StoreDb} (next : StoreDb) (h : Later accountId st st')
    (hschedules : ∀ s ∈ next.schedules, s.accountId = accountId → s ∈ st'.schedules) : Later accountId st next

/-- Nothing of the account is left, what is of other accounts is as it was, and no task is created for the account by a
later call of `fire_due_schedules`. -/
structure Deleted (st st' : StoreDb) (accountId : String) : Prop where
  complete : ∀ row ∈ rows st', ¬ owns st accountId row
  confined : ∀ b, b ≠ accountId → (tables st').map (List.filter (owns st b)) = (tables st).map (List.filter (owns st b))
  silent : ∀ later, Later accountId st' later → ∀ env limit, ∀ t ∈ (fireDueSchedules env limit later).2.tasks.tasks,
    t.accountId = accountId → t ∈ later.tasks.tasks

/-- When the deletion does so: the account has no schedule, no skill, and no pairing or device request of the command
line; SQLite takes the placeholders; no row of the account is another one's too; and the tasks of its steps and dead
letters are there. -/
structure Deletable (slots : ℕ) (st : StoreDb) (accountId : String) : Prop where
  schedules : ∀ s ∈ st.schedules, s.accountId ≠ accountId
  skills : ∀ s ∈ st.skills, s.accountId ≠ accountId
  cliPairings : ∀ p ∈ st.cliPairings, p.accountId ≠ accountId
  cliDeviceRequests : ∀ r ∈ st.cliDeviceRequests, r.accountId ≠ some accountId
  slots : (taskIds st accountId).length ≤ slots ∧ 2 * (stepIds st accountId).length ≤ slots
  sole : ∀ row ∈ rows st, owns st accountId row → ∀ b, owns st b row → b = accountId
  steps : ∀ s ∈ st.tasks.taskSteps, owns st accountId (.step s) → ∃ t ∈ st.tasks.tasks, t.id = s.taskId
  deadLetters : ∀ l ∈ st.tasks.taskDeadLetters, owns st accountId (.deadLetter l) → ∃ t ∈ st.tasks.tasks, t.id = l.taskId

section Proof
variable {st : StoreDb} {accountId b : String}

theorem map_deleteWhere {ρ : Type} {c : ρ → Row} {p : ρ → Prop} [DecidablePred p] (l : List ρ)
    (h : ∀ r, deletes st accountId (c r) = decide (p r)) :
    (deleteWhere p l).map c = (l.map c).filter fun row => !deletes st accountId row := by
  rw [deleteWhere, List.filter_map]
  refine congrArg (List.map c) (List.filter_congr fun r _ => ?_)
  simp [h]

theorem map_kept {ρ : Type} {c : ρ → Row} (l : List ρ) (h : ∀ r, deletes st accountId (c r) = false) :
    l.map c = (l.map c).filter fun row => !deletes st accountId row := by
  refine (List.filter_eq_self.mpr fun row hrow => ?_).symm
  obtain ⟨r, -, rfl⟩ := List.mem_map.mp hrow
  simp [h]

/-- **What is deleted**, table by table -/
theorem tables_deleteRows (st : StoreDb) (accountId : String) : tables (deleteRows accountId st) =
    (tables st).map (List.filter fun row => !deletes st accountId row) := by
  simp only [tables, List.map_cons, List.map_nil, List.cons.injEq, and_true]
  refine ⟨?_, ?_, ?_, ?_, ?_, ?_, ?_, ?_, ?_, ?_, ?_, ?_, ?_, ?_, ?_, ?_, ?_, ?_, ?_, ?_, ?_, ?_, ?_, ?_, ?_, ?_⟩
  all_goals first
    | exact map_deleteWhere _ fun r => rfl
    | exact map_kept _ fun r => rfl

theorem mem_rows_deleteRows {row : Row} :
    row ∈ rows (deleteRows accountId st) ↔ row ∈ rows st ∧ ¬ deletes st accountId row := by
  simp only [rows, tables_deleteRows, List.mem_flatten, List.mem_map]
  constructor
  · rintro ⟨-, ⟨l, hl, rfl⟩, hrow⟩
    obtain ⟨hmem, hkept⟩ := List.mem_filter.mp hrow
    exact ⟨⟨l, hl, hmem⟩, by simpa using hkept⟩
  · rintro ⟨⟨l, hl, hmem⟩, hkept⟩
    exact ⟨_, ⟨l, hl, rfl⟩, List.mem_filter.mpr ⟨hmem, by simpa using hkept⟩⟩

theorem mem_taskIds {id : Uuid} : id ∈ taskIds st accountId ↔ ∃ t ∈ st.tasks.tasks, t.accountId = accountId ∧ t.id = id := by
  simp [taskIds, and_assoc]

theorem ownStepIds_of_stepIds {id : Uuid} (h : id ∈ stepIds st accountId) : id ∈ ownStepIds st accountId := by
  obtain ⟨s, hs, rfl⟩ := List.mem_map.mp h
  obtain ⟨hmem, htask⟩ := List.mem_filter.mp hs
  exact List.mem_map_of_mem (List.mem_filter.mpr ⟨hmem, decide_eq_true (Or.inl (of_decide_eq_true htask))⟩)

theorem owns_of_deletes {row : Row} (h : deletes st accountId row) : owns st accountId row := by
  cases row with
  | step r =>
    simp only [deletes, owns, decide_eq_true_eq] at h ⊢
    exact Or.inl h
  | dependency r =>
    simp only [deletes, owns, decide_eq_true_eq] at h ⊢
    exact h.imp ownStepIds_of_stepIds ownStepIds_of_stepIds
  | lease r =>
    simp only [deletes, owns, decide_eq_true_eq] at h ⊢
    exact ownStepIds_of_stepIds h
  | deadLetter r =>
    simp only [deletes, owns, decide_eq_true_eq] at h ⊢
    exact Or.inr (Or.inl h)
  | action r =>
    simp only [deletes, owns, decide_eq_true_eq] at h ⊢
    exact Or.inl h
  | turn r =>
    simp only [deletes, owns, decide_eq_true_eq] at h ⊢
    exact Or.inl h
  | cliPairing r => simp [deletes] at h
  | cliDeviceRequest r => simp [deletes] at h
  | schedule r => simp [deletes] at h
  | skill r => simp [deletes] at h
  | _ => exact h

theorem deletes_of_owns {slots : ℕ} (h : Deletable slots st accountId) {row : Row} (hrow : row ∈ rows st)
    (howns : owns st accountId row) : deletes st accountId row := by
  have hstep : ∀ s ∈ st.tasks.taskSteps, owns st accountId (.step s) → s.taskId ∈ taskIds st accountId := by
    intro s hs hown
    obtain ⟨t, ht, hid⟩ := h.steps s hs hown
    have hother : owns st t.accountId (.step s) := by
      simp only [owns, decide_eq_true_eq]
      exact Or.inl (mem_taskIds.mpr ⟨t, ht, rfl, hid⟩)
    have haccount := h.sole (.step s) (by simpa [rows, tables] using hs) hown t.accountId hother
    exact mem_taskIds.mpr ⟨t, ht, haccount, hid⟩
  have hids : ∀ id, id ∈ ownStepIds st accountId → id ∈ stepIds st accountId := by
    intro id hid
    obtain ⟨s, hs, rfl⟩ := List.mem_map.mp hid
    obtain ⟨hmem, hown⟩ := List.mem_filter.mp hs
    exact List.mem_map_of_mem (List.mem_filter.mpr ⟨hmem, decide_eq_true (hstep s hmem hown)⟩)
  cases row with
  | step r => exact decide_eq_true (hstep r (by simpa [rows, tables] using hrow) howns)
  | dependency r =>
    simp only [deletes, owns, decide_eq_true_eq] at howns ⊢
    exact howns.imp (hids _) (hids _)
  | lease r =>
    simp only [deletes, owns, decide_eq_true_eq] at howns ⊢
    exact hids _ howns
  | deadLetter r =>
    obtain ⟨t, ht, hid⟩ := h.deadLetters r (by simpa [rows, tables] using hrow) howns
    have hother : owns st t.accountId (.deadLetter r) := by
      simp only [owns, decide_eq_true_eq]
      exact Or.inr (Or.inl (mem_taskIds.mpr ⟨t, ht, rfl, hid⟩))
    have haccount := h.sole _ hrow howns t.accountId hother
    exact decide_eq_true (mem_taskIds.mpr ⟨t, ht, haccount, hid⟩)
  | action r =>
    have hself : owns st r.accountId (.action r) := by simp [owns]
    exact decide_eq_true (h.sole _ hrow howns r.accountId hself)
  | turn r =>
    have hself : owns st r.accountId (.turn r) := by simp [owns]
    exact decide_eq_true (h.sole _ hrow howns r.accountId hself)
  | cliPairing r => exact absurd (of_decide_eq_true howns) (h.cliPairings r (by simpa [rows, tables] using hrow))
  | cliDeviceRequest r =>
    exact absurd (of_decide_eq_true howns) (h.cliDeviceRequests r (by simpa [rows, tables] using hrow))
  | schedule r => exact absurd (of_decide_eq_true howns) (h.schedules r (by simpa [rows, tables] using hrow))
  | skill r => exact absurd (of_decide_eq_true howns) (h.skills r (by simpa [rows, tables] using hrow))
  | _ => exact howns

theorem fire_silent {env : Env} {limit : ℕ} (hnone : ∀ s ∈ st.schedules, s.accountId ≠ accountId) :
    (∀ t ∈ (fireDueSchedules env limit st).2.tasks.tasks, t.accountId = accountId → t ∈ st.tasks.tasks) ∧
      ∀ s ∈ (fireDueSchedules env limit st).2.schedules, s.accountId ≠ accountId := by
  obtain ⟨g₀, hkept₀, -, hrelease⟩ := release_eq env.now
  have hreleased : ∀ s ∈ release env.now st.schedules, s.accountId ≠ accountId := by
    intro s hs
    rw [hrelease] at hs
    obtain ⟨r, hr, rfl⟩ := List.mem_map.mp hs
    rw [hkept₀.accountId]
    exact hnone r hr
  have hdue : ∀ s ∈ dueRows env.now limit st.schedules, s.accountId ≠ accountId :=
    fun s hs => hreleased s (mem_of_mem_page hs).1
  rcases commit_eq StoreDb.Constraints (Halt.raised Err.integrityError)
    (fun st => fireRows env env.now (dueRows env.now limit st.schedules)
      { st with schedules := release env.now st.schedules }) st with ⟨due, st', hbody, -, heq⟩ | ⟨e, heq⟩
  · have hafter : (fireDueSchedules env limit st).2 = st' := congrArg Prod.snd heq
    obtain ⟨-, ⟨new, htasks, -, haccounts⟩, g, hkept, hschedules, -, -⟩ := fireRows_ok hbody
    rw [hafter, htasks, hschedules]
    constructor
    · intro t ht haccount
      rcases List.mem_append.mp ht with ht | ht
      · exact ht
      · have hmem : t.accountId ∈ new.map Task.accountId := List.mem_map_of_mem ht
        rw [haccounts] at hmem
        obtain ⟨s, hs, hsame⟩ := List.mem_map.mp hmem
        exact absurd (hsame.trans haccount) (hdue s hs)
    · intro s hs
      obtain ⟨r, hr, rfl⟩ := List.mem_map.mp hs
      rw [hkept.accountId]
      exact hreleased r hr
  · have hafter : (fireDueSchedules env limit st).2 = st := congrArg Prod.snd heq
    rw [hafter]
    exact ⟨fun t ht _ => ht, hnone⟩

theorem later_none {st' : StoreDb} (hnone : ∀ s ∈ st.schedules, s.accountId ≠ accountId)
    (h : Later accountId st st') : ∀ s ∈ st'.schedules, s.accountId ≠ accountId := by
  induction h with
  | refl => exact hnone
  | fire env limit _ ih => exact (fire_silent ih).2
  | other next _ hschedules ih => exact fun s hs haccount => ih s (hschedules s hs haccount) haccount

theorem deleteAccount_snd {slots : ℕ}
    (h : (taskIds st accountId).length ≤ slots ∧ 2 * (stepIds st accountId).length ≤ slots) :
    (deleteAccount slots accountId st).2 = deleteRows accountId st := by
  rw [deleteAccount, if_pos h]

theorem exists_task_of_refused {slots : ℕ}
    (h : ¬ ((taskIds st accountId).length ≤ slots ∧ 2 * (stepIds st accountId).length ≤ slots)) :
    ∃ t ∈ st.tasks.tasks, t.accountId = accountId := by
  by_contra hno
  push Not at hno
  have htasks : taskIds st accountId = [] := by
    rw [taskIds, List.map_eq_nil_iff, List.filter_eq_nil_iff]
    simpa using hno
  have hsteps : stepIds st accountId = [] := by simp [stepIds, htasks]
  exact h (by simp [htasks, hsteps])

/-- **When the deletion of an account is complete and confined to it**, and no task is created for the account any
more. -/
theorem deleteAccount_iff (slots : ℕ) (st : StoreDb) (accountId : String) :
    Deleted st (deleteAccount slots accountId st).2 accountId ↔ Deletable slots st accountId := by
  constructor
  · intro h
    have hslots : (taskIds st accountId).length ≤ slots ∧ 2 * (stepIds st accountId).length ≤ slots := by
      by_contra hno
      obtain ⟨t, ht, haccount⟩ := exists_task_of_refused hno
      refine h.complete (.task t) ?_ (decide_eq_true haccount)
      rw [deleteAccount, if_neg hno]
      simpa [rows, tables] using ht
    rw [deleteAccount_snd hslots] at h
    have hdeleted : ∀ row ∈ rows st, owns st accountId row → deletes st accountId row := by
      intro row hrow howns
      by_contra hkept
      exact h.complete row (mem_rows_deleteRows.mpr ⟨hrow, hkept⟩) howns
    have hleft : ∀ row ∈ rows st, deletes st accountId row = false → ¬ owns st accountId row := by
      intro row hrow hkept howns
      rw [hdeleted row hrow howns] at hkept
      cases hkept
    refine ⟨fun s hs haccount => ?_, fun s hs haccount => ?_, fun p hp haccount => ?_, fun r hr haccount => ?_,
      hslots, ?_, fun s hs howns => ?_, fun l hl howns => ?_⟩
    · exact hleft (.schedule s) (by simpa [rows, tables] using hs) rfl (decide_eq_true haccount)
    · exact hleft (.skill s) (by simpa [rows, tables] using hs) rfl (decide_eq_true haccount)
    · exact hleft (.cliPairing p) (by simpa [rows, tables] using hp) rfl (decide_eq_true haccount)
    · exact hleft (.cliDeviceRequest r) (by simpa [rows, tables] using hr) rfl (decide_eq_true haccount)
    · intro row hrow howns b hb
      by_contra hne
      have hconfined := congrArg List.flatten (h.confined b hne)
      rw [← List.filter_flatten, ← List.filter_flatten] at hconfined
      have hmem : row ∈ (rows st).filter (owns st b) := List.mem_filter.mpr ⟨hrow, hb⟩
      rw [rows, ← hconfined] at hmem
      exact (mem_rows_deleteRows.mp (List.mem_filter.mp hmem).1).2 (hdeleted row hrow howns)
    · have htask := of_decide_eq_true (hdeleted (.step s) (by simpa [rows, tables] using hs) howns)
      obtain ⟨t, ht, -, hid⟩ := mem_taskIds.mp htask
      exact ⟨t, ht, hid⟩
    · have htask := of_decide_eq_true (hdeleted (.deadLetter l) (by simpa [rows, tables] using hl) howns)
      obtain ⟨t, ht, -, hid⟩ := mem_taskIds.mp htask
      exact ⟨t, ht, hid⟩
  · intro h
    rw [deleteAccount_snd h.slots]
    refine ⟨fun row hrow howns => ?_, fun b hb => ?_, fun later hlater env limit => ?_⟩
    · obtain ⟨hmem, hkept⟩ := mem_rows_deleteRows.mp hrow
      exact hkept (deletes_of_owns h hmem howns)
    · rw [tables_deleteRows, List.map_map]
      refine List.map_congr_left fun l hl => ?_
      rw [Function.comp_apply, List.filter_filter]
      refine List.filter_congr fun row hrow => ?_
      have hmem : row ∈ rows st := List.mem_flatten.mpr ⟨l, hl, hrow⟩
      by_cases howns : owns st b row
      · have hkept : ¬ deletes st accountId row := by
          intro hdelete
          exact hb (h.sole row hmem (owns_of_deletes hdelete) b howns)
        simp [howns, hkept]
      · simp [howns]
    · have hnone : ∀ s ∈ (deleteRows accountId st).schedules, s.accountId ≠ accountId := h.schedules
      exact (fire_silent (later_none hnone hlater)).1

end Proof

def scheduled : StoreDb :=
  (createSchedule (envAt 0) "a" "w" "Daily" "Report on the day" 3600 (nowText 0) false [] {}).2

/-- The schedule stays, and creates a task. -/
theorem schedule_left : ¬ Deleted scheduled (deleteAccount 250000 "a" scheduled).2 "a" ∧
    (fireDueSchedules (envAt 60) 10 (deleteAccount 250000 "a" scheduled).2).2.tasks.tasks.map Task.accountId = ["a"] := by
  constructor
  · intro h
    have hrow : scheduled.schedules.map Schedule.accountId = ["a"] := by decide
    obtain ⟨s, hs, haccount⟩ := List.mem_map.mp (hrow ▸ List.mem_singleton_self "a")
    have hkept : (deleteAccount 250000 "a" scheduled).2.schedules = scheduled.schedules := by
      rw [deleteAccount]
      split_ifs <;> rfl
    refine h.complete (.schedule s) ?_ (decide_eq_true haccount)
    rw [← hkept] at hs
    simpa [rows, tables] using hs
  · decide_cbv

end Smara.Store.Deletion
