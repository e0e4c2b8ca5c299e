import Smara.TaskStore.Cancellation

/-! # Bounded attempts

Every claim of a step raises its `attempts`, and only a retry of the task resets them, so `attempts`
bounds the number of times the step has been started since then (`starts_le_attempts`).

`attempts_bounded`: a hosted or sandbox step is started at most `max_attempts` times without a retry
of its task, and once its attempts are used up it is not queued, and a failure of it is final and
leaves a dead letter, in every run in which no `claim_one` recovers the expired lease of the step with
its attempts used up: this recovery alone does not look at `max_attempts`. -/

namespace Smara.TaskStore.Attempts

open Lib.Machine Lib.Table Lib.Transaction TaskStore.Schema TaskStore.Schema.TaskDb
open TaskStore.Lifecycle TaskStore.Claim TaskStore.Report TaskStore.Calls
open TaskStore.Control TaskStore.View TaskStore.Effects TaskStore.Refine
open TaskStore.Frame TaskStore.Cancellation

variable {db db' : TaskDb} {s t : Uuid} {c c' : State} {a : Act}

/-! ### The budget of a step -/

def Budgeted (s : Uuid) (c : State) : Prop :=
  ∀ st, c.step s = some st → 0 < st.maxAttempts ∧ (st.kind ≠ .desktop →
    st.attempts ≤ st.maxAttempts ∧ (st.status = .queued → st.attempts < st.maxAttempts))

/-- The acts that requeue the step `s` without regard to its attempts. -/
def Overdraws (s : Uuid) (c : State) : Act → Prop
  | .requeue s' _ => s' = s ∧ ∃ st, c.step s = some st ∧ st.kind ≠ .desktop ∧
      st.maxAttempts ≤ st.attempts
  | _ => False

theorem budgeted_apply (h : Budgeted s c) (he : Enabled c a) (ha : ¬ Overdraws s c a) :
    Budgeted s (apply c a) := by
  intro st hst
  rcases of_step_apply hst with ⟨st₀, hst₀, rfl⟩ | ⟨-, t, r, g, ss, ds, rfl, hnew⟩
  swap
  · obtain ⟨-, -, -, -, hatt, hmax⟩ := newStep_taskId hnew
    exact ⟨by omega, fun _ => ⟨by omega, fun _ => by omega⟩⟩
  obtain ⟨hpos, hbud⟩ := h st₀ hst₀
  have hkept := kept_stepAfter a s st₀
  refine ⟨by rw [hkept.2.2.2]; exact hpos, fun hk => ?_⟩
  rw [hkept.2.2.1] at hk
  obtain ⟨hle, hlt⟩ := hbud hk
  cases a with
  | start s' t =>
    by_cases hs : s = s'
    · subst hs
      obtain ⟨⟨st₁, hst₁, hq⟩, -⟩ := he
      obtain rfl : st₀ = st₁ := Option.some.inj (hst₀.symm.trans hst₁.1)
      exact ⟨by simpa [stepAfter] using Nat.succ_le_of_lt (hlt hq), by simp [stepAfter]⟩
    · simpa [stepAfter, hs] using ⟨hle, hlt⟩
  | retry t g =>
    simp only [stepAfter]
    split_ifs
    · exact ⟨Nat.zero_le _, fun _ => hpos⟩
    · exact ⟨hle, hlt⟩
  | requeue s' t =>
    by_cases hs : s = s'
    · subst hs
      have : st₀.attempts < st₀.maxAttempts := by
        by_contra hn
        exact ha ⟨rfl, st₀, hst₀, hk, not_lt.mp hn⟩
      simpa [stepAfter] using ⟨hle, this⟩
    · simpa [stepAfter, hs] using ⟨hle, hlt⟩
  | failRetry s' t =>
    by_cases hs : s = s'
    · subst hs
      obtain ⟨st₁, tk, hst₁, -, hatt⟩ := he
      obtain rfl : st₀ = st₁ := Option.some.inj (hst₀.symm.trans hst₁.1)
      simpa [stepAfter] using ⟨hle, hatt⟩
    · simpa [stepAfter, hs] using ⟨hle, hlt⟩
  | insert | gate | approve | record => exact ⟨hle, hlt⟩
  | deny | cancel | drop | expire | failFinal | complete =>
    simp only [stepAfter]
    split_ifs <;> first | exact ⟨hle, hlt⟩ | exact ⟨hle, by simp⟩

/-! ### Counting starts -/

def attempts (s : Uuid) (c : State) : ℕ := ((c.step s).map StepCtl.attempts).getD 0

def starts (s : Uuid) (o : Option Uuid) : ℕ := if o = some s then 1 else 0

theorem attempts_apply {st : StepCtl} (hst : c.step s = some st)
    (ha : ∀ g, a ≠ .retry st.taskId g) :
    attempts s c + starts s a.started = attempts s (apply c a) := by
  rw [attempts, attempts, step_apply a hst, hst]
  simp only [Option.map_some, Option.getD_some]
  cases a with
  | start s' t =>
    by_cases hs : s = s'
    · simp [stepAfter, starts, Act.started, hs]
    · simp [stepAfter, starts, Act.started, hs, Ne.symm hs]
  | retry t g =>
    have ht : st.taskId ≠ t := fun h => ha g (by rw [h])
    simp [stepAfter, starts, Act.started, ht]
  | insert | gate | approve | record => simp [stepAfter, starts, Act.started]
  | deny | cancel | requeue | drop | expire | failRetry | failFinal | complete =>
    simp only [stepAfter]
    split_ifs <;> simp [starts, Act.started]

theorem total_starts (c : State) (as : List Act) :
    total apply (fun _ a => starts s a.started) c as = (as.filterMap Act.started).count s := by
  induction as generalizing c with
  | nil => rfl
  | cons a as ih =>
    rw [total, ih]
    cases h : a.started with
    | none => simp [starts, h]
    | some x => by_cases hx : x = s <;> simp [starts, h, hx, Nat.add_comm]

/-- **A call raises the attempts of a step by its starts of it**, unless it retries the task. -/
theorem attempts_step {call : Call} (h : db.Constraints) (hs : ∃ st, StepOf (view db) s t st)
    (hretry : ∀ env a, call ≠ .retryTask env t a) :
    attempts s (view db) + starts s (started db call) ≤ attempts s (view (step db call)) := by
  obtain ⟨as, hpath, hstart, -⟩ := call_path h call
  have hnot : ∀ c a, MayDo db call c a → ∀ g, a ≠ .retry t g := fun c a hm g ha => by
    subst ha
    cases hm with
    | retry => exact hretry _ _ rfl
  have := total_add_le (I := fun c => ∃ st, StepOf c s t st) (w := fun _ a => starts s a.started)
    (φ := attempts s) (fun c a hI _ => (stepOf_kept a hI.choose_spec).imp fun _ => And.left)
    (fun c a hI hG => by
      obtain ⟨st, hst, ht⟩ := hI
      exact (attempts_apply hst fun g => ht ▸ hnot c a hG.2 g).le) hs hpath.1
  rw [total_starts, hstart, hpath.2] at this
  cases hx : started db call with
  | none => simpa [hx, starts] using this
  | some x => simpa [hx, starts, List.count_singleton] using this

/-! ### Runs -/

/-- The call is a `claim_one` that recovers the expired lease of the step with its attempts used up. -/
def RecoversExhausted (s : Uuid) (db : TaskDb) : Call → Prop
  | .claimOne env _ _ _ => ∃ row ∈ expiredHosted env.now db, row.id = s ∧
      row.maxAttempts ≤ row.attempts ∧
      ¬ ∃ task ∈ lookup Task.id row.taskId db.tasks, task.cancelRequested = true
  | _ => False

instance (s : Uuid) (db : TaskDb) (call : Call) : Decidable (RecoversExhausted s db call) := by
  apply @Call.casesOn (fun call => Decidable (RecoversExhausted s db call)) call <;> intros <;>
    unfold RecoversExhausted <;> infer_instance

def IsFailStep (s : Uuid) : Call → Prop
  | .failStep _ s' _ _ _ _ => s' = s
  | _ => False

/-- A step with its attempts used up is not queued and does not start, and a `fail_step` of it that
returns has failed it for good, with a dead letter. -/
def DeadLettered (s : Uuid) (db : TaskDb) (call : Call) : Prop :=
  ∀ row ∈ db.taskSteps, row.id = s → row.maxAttempts ≤ row.attempts →
    row.status ≠ .queued ∧ started db call ≠ some s ∧
    (IsFailStep s call → ∀ reply, (exec db call).1 = .ok reply → reply = .outcome .failed ∧
      ∃ d ∈ (step db call).taskDeadLetters, d.stepId = s ∧ d.resolvedAt = none)

theorem not_overdraws {call : Call} (hrec : ¬ RecoversExhausted s db call) (hm : MayDo db call c a) :
    ¬ Overdraws s c a := by
  intro ha
  cases hm with
  | requeueHosted h hc hf =>
    obtain ⟨rfl, st, hst, -, hle⟩ := ha
    obtain rfl := Option.some.inj (hc.symm.trans hst)
    refine hrec ⟨_, h, rfl, hle, fun ⟨task, ht, hflag⟩ => hf ?_⟩
    simp only [Option.mem_def] at ht
    simp [flags, view, ht, taskCtl, hflag]
  | requeueDesktop h =>
    obtain ⟨rfl, st, hst, hk, -⟩ := ha
    obtain ⟨st', hst', hk'⟩ := h
    exact hk ((Option.some.inj (hst.symm.trans hst')) ▸ hk')
  | _ => exact ha

theorem budgeted_step {call : Call} (h : db.Constraints) (hb : Budgeted s (view db))
    (hrec : ¬ RecoversExhausted s db call) : Budgeted s (view (step db call)) :=
  inv_step h (fun _ _ hc he hm => budgeted_apply hc he (not_overdraws hrec hm)) hb

theorem failStep_exhausted (h : db.Constraints) {row : TaskStep} (hrow : row ∈ db.taskSteps)
    (hex : row.maxAttempts ≤ row.attempts) {env : Env} {a e : String} {d : ℤ} {retryable : Bool}
    {reply : Reply} (hok : exec db (.failStep env row.id a e d retryable) = (.ok reply, db')) :
    reply = .outcome .failed ∧
      ∃ d ∈ db'.taskDeadLetters, d.stepId = row.id ∧ d.resolvedAt = none := by
  obtain ⟨o, hw, rfl⟩ := replying_ok hok
  have hw := (transaction_ok hw).1
  cases hrow' : ownedStep row.id a db with
  | none => simp [failStepWrite, hrow'] at hw
  | some row' =>
    obtain ⟨hm, hid, -⟩ := ownedStep_eq_some hrow'
    obtain rfl : row' = row := h.taskSteps.eq_of_key hm hrow hid
    have hn : ¬ Retries retryable row' := fun hr => absurd hr.lt_maxAttempts (not_lt.mpr hex)
    simp only [failStepWrite, hrow', if_neg hn, Except.ok.injEq, Prod.mk.injEq] at hw
    obtain ⟨rfl, rfl⟩ := hw
    exact ⟨rfl, _, List.mem_append_right _ (List.mem_singleton_self _), rfl, rfl⟩

/-- The step with an id: of the task `t`, not on a desktop, with `n` attempts allowed. -/
def IsStep (s t : Uuid) (n : ℕ) (c : State) : Prop :=
  ∃ st, StepOf c s t st ∧ st.kind ≠ .desktop ∧ st.maxAttempts = n

theorem isStep_step {n : ℕ} {call : Call} (h : db.Constraints) (hs : IsStep s t n (view db)) :
    IsStep s t n (view (step db call)) :=
  inv_step h (fun _ a ⟨_, hst, hk, hm⟩ _ _ =>
    let ⟨st', hst', hkept⟩ := stepOf_kept a hst
    ⟨st', hst', hkept.2.2.1 ▸ hk, hkept.2.2.2.trans hm⟩) hs

theorem attempts_le {n : ℕ} (hb : Budgeted s c) (hs : IsStep s t n c) : attempts s c ≤ n := by
  obtain ⟨st, hst, hk, rfl⟩ := hs
  simpa [attempts, hst.1] using ((hb st hst.1).2 hk).1

theorem deadLettered_of_budgeted {n : ℕ} {call : Call} (h : db.Constraints)
    (hb : Budgeted s (view db)) (hs : IsStep s t n (view db))
    (hretry : ∀ env a, call ≠ .retryTask env t a) (hrec : ¬ RecoversExhausted s db call) :
    DeadLettered s db call := by
  intro row hrow hid hex
  subst hid
  obtain ⟨st, hst, hk, hn⟩ := hs
  obtain rfl : stepCtl row = st :=
    Option.some.inj ((view_step_of_mem (keys_of_constraints h) hrow).symm.trans hst.1)
  refine ⟨fun hq => ?_, fun hstart => ?_, fun hfail reply hok => ?_⟩
  · exact absurd (((hb _ hst.1).2 hk).2 hq) (not_lt.mpr hex)
  · -- one more start would exceed the budget that the call keeps
    have hle := attempts_step h ⟨_, hst⟩ hretry
    have hmax := attempts_le (budgeted_step h hb hrec) (isStep_step h ⟨_, hst, hk, hn⟩)
    have hatt : attempts row.id (view db) = row.attempts := by simp [attempts, hst.1, stepCtl]
    have hmax' : row.maxAttempts = n := hn
    simp only [hstart, starts, if_true] at hle
    omega
  · cases call <;> first | exact hfail.elim | skip
    obtain rfl := hfail
    exact failStep_exhausted h hrow hex (Prod.ext hok rfl)

/-- **Bounded attempts.** -/
theorem attempts_bounded {calls₀ calls : List Call} {row : TaskStep}
    (hrow : row ∈ (run step {} calls₀).taskSteps)
    (hkind : row.executorKind = .hosted ∨ row.executorKind = .sandbox)
    (hretry : ∀ env a, Call.retryTask env row.taskId a ∉ calls)
    (hrec : Along step (fun db call => ¬ RecoversExhausted row.id db call) {} (calls₀ ++ calls)) :
    total step (fun db call => starts row.id (started db call)) (run step {} calls₀) calls ≤
        row.maxAttempts ∧
      Along step (DeadLettered row.id) (run step {} calls₀) calls := by
  obtain ⟨hrec₀, hrec₁⟩ := along_append.mp hrec
  obtain ⟨hcons, hbud⟩ := inv_run (I := fun db => db.Constraints ∧ Budgeted row.id (view db))
    (fun db call hI hG => ⟨constraints_step call hI.1, budgeted_step hI.1 hI.2 hG⟩)
    ⟨constraints_empty, fun st hst => by simp [view, lookup] at hst⟩ hrec₀
  have hstep : IsStep row.id row.taskId row.maxAttempts (view (run step {} calls₀)) :=
    ⟨_, stepOf_of_mem (keys_of_constraints hcons) hrow,
      by rcases hkind with hk | hk <;> simp [stepCtl, hk], rfl⟩
  have hguard := along_and.mpr ⟨along_of_forall (R := fun call => ∀ env a,
    call ≠ .retryTask env row.taskId a) fun call hc env a he => hretry env a (by rwa [← he]), hrec₁⟩
  have hI : ∀ db call, (db.Constraints ∧ Budgeted row.id (view db) ∧
      IsStep row.id row.taskId row.maxAttempts (view db)) →
      ((∀ env a, call ≠ .retryTask env row.taskId a) ∧ ¬ RecoversExhausted row.id db call) →
      (step db call).Constraints ∧ Budgeted row.id (view (step db call)) ∧
        IsStep row.id row.taskId row.maxAttempts (view (step db call)) := fun db call hI hG =>
    ⟨constraints_step call hI.1, budgeted_step hI.1 hI.2.1 hG.2, isStep_step hI.1 hI.2.2⟩
  constructor
  · have hle := total_add_le (w := fun db call => starts row.id (started db call))
      (φ := fun db => attempts row.id (view db)) hI
      (fun db call hI hG => attempts_step hI.1 (hI.2.2.imp fun _ h => h.1) hG.1)
      ⟨hcons, hbud, hstep⟩ hguard
    obtain ⟨-, hbud', hstep'⟩ := inv_run hI ⟨hcons, hbud, hstep⟩ hguard
    exact (Nat.le_add_left _ _).trans (hle.trans (attempts_le hbud' hstep'))
  · exact along_of_inv hI
      (fun db call hI hG => deadLettered_of_budgeted hI.1 hI.2.1 hI.2.2 hG.1 hG.2)
      ⟨hcons, hbud, hstep⟩ hguard

def claimHosted (n : ℤ) : Call := .claimOne (envAt n) "worker" 60 [.hosted]

def createHosted : Call := .create (envAt 0) "a" "w" "title" "objective" false [] .hosted

def hostedRow : TaskStep :=
  ⟨0, 0, 0, 1, "agent.execute", .queued, (0, 1), none, none, 0, 0, 3, none, none, none, .hosted,
    ⟨"{}", none⟩⟩

/-- The witness: the step fails once and is started a second time. -/
theorem attempts_bounded_of_failed :
    total step (fun db call => starts 0 (started db call)) (run step {} [createHosted])
        [claimHosted 1, .failStep (envAt 2) 0 "a" "boom" 5 true, claimHosted 10] ≤ 3 ∧
      Along step (DeadLettered 0) (run step {} [createHosted])
        [claimHosted 1, .failStep (envAt 2) 0 "a" "boom" 5 true, claimHosted 10] :=
  have hrow : hostedRow ∈ (run step {} [createHosted]).taskSteps := by decide
  attempts_bounded hrow (by decide) (by simp [claimHosted]) (by decide)

/-- **The claim fails**: three workers die with the step, and it is started a fourth time. -/
theorem started_four_times :
    hostedRow ∈ (run step {} [createHosted]).taskSteps ∧
    ¬ total step (fun db call => starts hostedRow.id (started db call)) (run step {} [createHosted])
      [claimHosted 1, claimHosted 100, claimHosted 200, claimHosted 300] ≤ hostedRow.maxAttempts := by
  decide

end Smara.TaskStore.Attempts
