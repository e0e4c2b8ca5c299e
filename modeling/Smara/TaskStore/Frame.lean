import Smara.TaskStore.Control

/-! # What an act leaves alone

* `frame`: an enabled act leaves every task other than its own as it was, with its steps, its
  decision and its history.
* `task_apply`, `log_apply`, `approval_apply`: what it does to its own.
* `step_kept`: a step keeps its task, its run, its kind and its allowed attempts. -/

namespace Smara.TaskStore.Frame

open TaskStore.Schema TaskStore.Control TaskStore.Control.State

def actTask : Act → Uuid
  | .insert t _ _ _ _ | .gate t | .approve t | .deny t | .cancel t _ | .retry t _ => t
  | .requeue _ t | .drop _ t | .expire _ t | .start _ t | .complete _ t _ => t
  | .failRetry _ t | .failFinal _ t | .record t _ => t

/-- The task `t` is the same in both states. -/
structure Same (t : Uuid) (c c' : State) : Prop where
  task : c'.task t = c.task t
  step : ∀ s st, StepOf c' s t st ↔ StepOf c s t st
  approval : c'.approval t = c.approval t
  log : c'.log t = c.log t

variable {c : State} {t : Uuid}

theorem newStep_taskId {r i : Uuid} {steps : List (Uuid × ExecutorKind)} {st : StepCtl}
    (h : newStep t r steps i = some st) :
    (∃ s ∈ steps, s.1 = i) ∧ st.taskId = t ∧ st.runId = r ∧ st.status = .queued ∧ st.attempts = 0 ∧
      st.maxAttempts = 3 := by
  obtain ⟨s, hs, rfl⟩ := Option.map_eq_some_iff.mp h
  exact ⟨⟨s, List.mem_of_find?_eq_some hs, by simpa using List.find?_some hs⟩, rfl, rfl, rfl, rfl, rfl⟩

/-! ### Updates -/

theorem Same.trans {c' c'' : State} (h : Same t c c') (h' : Same t c' c'') : Same t c c'' :=
  ⟨h'.task.trans h.task, fun s st => (h'.step s st).trans (h.step s st),
    h'.approval.trans h.approval, h'.log.trans h.log⟩

theorem same_mapStep {g : Uuid → StepCtl → StepCtl} (hid : ∀ i x, (g i x).taskId = x.taskId)
    (hg : ∀ i x, c.step i = some x → x.taskId = t → g i x = x) : Same t c (c.mapStep g) := by
  refine ⟨rfl, fun s st => ?_, rfl, rfl⟩
  simp only [StepOf, mapStep_step, Option.map_eq_some_iff]
  constructor
  · rintro ⟨⟨x, hx, rfl⟩, ht⟩
    rw [hid] at ht
    rw [hg s x hx ht]
    exact ⟨hx, ht⟩
  · rintro ⟨hs, ht⟩
    exact ⟨⟨st, hs, hg s st hs ht⟩, ht⟩

theorem same_setStep {s t' : Uuid} {st : StepCtl} {f : StepCtl → StepCtl}
    (hf : ∀ x, (f x).taskId = x.taskId) (h : StepOf c s t' st) (ht : t' ≠ t) :
    Same t c (c.setStep s f) := by
  refine same_mapStep (fun i x => by split_ifs <;> simp [hf]) fun i x hx hxt => ?_
  split_ifs with hi
  · subst hi
    obtain rfl : st = x := by simpa [h.1] using hx
    exact absurd (h.2.symm.trans hxt) ht
  · rfl

theorem same_setStepStatus {s t' : Uuid} {st : StepCtl} (status : StepStatus)
    (h : StepOf c s t' st) (ht : t' ≠ t) : Same t c (c.setStepStatus s status) :=
  same_setStep (by intros; rfl) h ht

theorem same_setTask {i : Uuid} (f : TaskCtl → TaskCtl) (hi : i ≠ t) : Same t c (c.setTask i f) :=
  ⟨by simp [setTask, Ne.symm hi], fun _ _ => Iff.rfl, rfl, rfl⟩

theorem same_setApproval {i : Uuid} (a : Option ApprovalStatus) (hi : i ≠ t) :
    Same t c (c.setApproval i a) :=
  ⟨rfl, fun _ _ => Iff.rfl, by simp [Function.update_of_ne (Ne.symm hi)], rfl⟩

theorem same_addMark {i : Uuid} (m : Mark) (hi : i ≠ t) : Same t c (c.addMark i m) :=
  ⟨rfl, fun _ _ => Iff.rfl, rfl, by simp [Function.update_of_ne (Ne.symm hi)]⟩

theorem same_cancelQueued {i : Uuid} (hi : i ≠ t) : Same t c (c.cancelQueued i) :=
  same_mapStep (fun _ x => by split_ifs <;> rfl) fun _ x _ hx => by simp [hx, Ne.symm hi]

theorem same_insert {t' r : Uuid} {gated : Bool} {steps : List (Uuid × ExecutorKind)}
    {deps : List (Uuid × Uuid)} (ht : t' ≠ t) : Same t c (apply c (.insert t' r gated steps deps)) := by
  let c' : State := { c with
    task := fun i => (c.task i).or (if t' = i then some ⟨.queued, gated, false⟩ else none)
    step := fun i => (c.step i).or (newStep t' r steps i)
    run := fun i => (c.run i).or (if r = i then some t' else none)
    dep := fun s p => c.dep s p ∨ (s, p) ∈ deps }
  have hrows : Same t c c' := by
    refine ⟨by simp [c', ht], fun s st => ?_, rfl, rfl⟩
    simp only [c', StepOf]
    cases hs : c.step s with
    | some x => simp
    | none =>
      simp only [Option.none_or, reduceCtorEq, false_and, iff_false, not_and]
      exact fun h hst => ht ((newStep_taskId h).2.1.symm.trans hst)
  exact hrows.trans (same_addMark _ ht)

/-! ### Acts -/

/-- **Frame.** An enabled act leaves the other tasks alone. -/
theorem frame {a : Act} (he : Enabled c a) (ht : actTask a ≠ t) : Same t c (apply c a) := by
  cases a with
  | insert => exact same_insert ht
  | gate => exact same_setTask _ ht
  | approve =>
    exact ((same_setApproval _ ht).trans (same_setTask _ ht)).trans (same_addMark _ ht)
  | deny =>
    exact (((same_setApproval _ ht).trans (same_setTask _ ht)).trans (same_cancelQueued ht)).trans
      (same_addMark _ ht)
  | cancel =>
    exact ((same_setTask _ ht).trans (same_cancelQueued ht)).trans (same_addMark _ ht)
  | retry t' =>
    refine (((same_mapStep (fun _ x => ?_) fun _ x _ hx => ?_).trans (same_setApproval _ ht)).trans
      (same_setTask _ ht)).trans (same_addMark _ ht)
    · split_ifs <;> rfl
    · rw [if_neg fun h => ht (h.1.symm.trans hx)]
  | requeue =>
    obtain ⟨⟨st, hs, -⟩, -⟩ := he
    exact (same_setStepStatus _ hs ht).trans (same_setTask _ ht)
  | drop =>
    obtain ⟨⟨st, hs, -⟩, -⟩ := he
    exact (same_setStepStatus _ hs ht).trans (same_setTask _ ht)
  | expire =>
    obtain ⟨⟨st, hs, -⟩, -⟩ := he
    exact (same_setStepStatus _ hs ht).trans (same_setTask _ ht)
  | start s t' =>
    obtain ⟨⟨st, hs, -⟩, -⟩ := he
    have h : Same t c (apply c (.start s t')) :=
      (((same_setTask _ ht).trans (same_setStep (by intros; rfl)
        (show StepOf (c.setTaskStatus t' .running) s t' st from hs) ht)).trans (same_addMark _ ht))
    exact h
  | complete s t' ending =>
    obtain ⟨st, tk, hs, -⟩ := he
    have h := (same_setStep (f := fun x => if x.status = .running then
      { x with status := .completed } else x) (fun x => by split_ifs <;> rfl) hs ht).trans
        (same_addMark .stepCompleted ht)
    cases ending with
    | cancelled => exact h.trans (same_setTask _ ht)
    | last => exact (h.trans (same_setTask _ ht)).trans (same_addMark _ ht)
    | pending => exact h
  | failRetry =>
    obtain ⟨st, tk, hs, -⟩ := he
    exact (same_setStepStatus _ hs ht).trans (same_setTask _ ht)
  | failFinal =>
    obtain ⟨st, tk, hs, -⟩ := he
    exact (same_setStepStatus _ hs ht).trans (same_setTask _ ht)
  | record => exact same_addMark _ ht

/-! ### The own task of an act -/

def taskAfter : Act → TaskCtl → TaskCtl
  | .gate _, tk => { tk with status := .waitingApproval }
  | .approve _, tk => { tk with status := .queued, requiresApproval := false }
  | .deny _, tk => { tk with status := .cancelled, requiresApproval := true }
  | .cancel _ idle, tk =>
    { tk with status := if idle then .cancelled else .cancelling, cancelRequested := true }
  | .retry _ gated, _ => ⟨if gated then .waitingApproval else .queued, gated, false⟩
  | .requeue _ _, tk => if tk.status = .running then { tk with status := .queued } else tk
  | .drop _ _, tk | .complete _ _ .cancelled, tk => { tk with status := .cancelled }
  | .expire _ _, tk | .failFinal _ _, tk => { tk with status := .failed }
  | .start _ _, tk => { tk with status := .running }
  | .complete _ _ .last, tk => { tk with status := .completed }
  | .failRetry _ _, tk => { tk with status := .queued }
  | .insert _ _ _ _ _, tk | .complete _ _ .pending, tk | .record _ _, tk => tk

theorem task_apply {tk : TaskCtl} (a : Act) (h : c.task (actTask a) = some tk) :
    (apply c a).task (actTask a) = some (taskAfter a tk) := by
  cases a with
  | complete s t' ending =>
    cases ending <;> simp [Control.apply, taskAfter, show c.task t' = some tk from h, actTask]
  | record => exact h
  | insert t' => simp [Control.apply, taskAfter, actTask, show c.task t' = some tk from h]
  | retry t' => simp [Control.apply, taskAfter, actTask, show c.task t' = some tk from h]
  | _ =>
    simp only [actTask] at h
    simp [Control.apply, taskAfter, actTask, h]

theorem of_task_apply {tk : TaskCtl} {a : Act} (h : (apply c a).task (actTask a) = some tk) :
    (∃ tk₀, c.task (actTask a) = some tk₀ ∧ tk = taskAfter a tk₀) ∨
      (c.task (actTask a) = none ∧ ∃ t r gated steps deps, a = .insert t r gated steps deps ∧
        tk = ⟨.queued, gated, false⟩) := by
  cases hc : c.task (actTask a) with
  | some tk₀ => exact Or.inl ⟨tk₀, rfl, Option.some.inj (h.symm.trans (task_apply a hc))⟩
  | none =>
    refine Or.inr ⟨rfl, ?_⟩
    cases a with
    | insert t r gated steps deps =>
      refine ⟨t, r, gated, steps, deps, rfl, ?_⟩
      simpa [Control.apply, actTask, show c.task t = none from hc] using h.symm
    | complete s t' ending =>
      cases ending <;> simp [Control.apply, actTask, show c.task t' = none from hc] at h
    | record => simp [Control.apply, hc] at h
    | _ =>
      simp only [actTask] at hc
      simp [Control.apply, actTask, hc] at h

/-- What an act adds to the history of its task. -/
def marksOf : Act → List Mark
  | .insert _ _ _ _ _ => [.created]
  | .approve _ => [.approved]
  | .deny _ => [.denied]
  | .cancel _ _ => [.cancelAsked]
  | .retry _ _ => [.retried]
  | .start _ _ => [.started]
  | .complete _ _ .last => [.stepCompleted, .completed]
  | .complete _ _ _ => [.stepCompleted]
  | .record _ m => [m]
  | .gate _ | .requeue _ _ | .drop _ _ | .expire _ _ | .failRetry _ _ | .failFinal _ _ => []

theorem log_apply (c : State) (a : Act) :
    (apply c a).log (actTask a) = c.log (actTask a) ++ marksOf a := by
  cases a with
  | complete s t' ending => cases ending <;> simp [Control.apply, marksOf, actTask]
  | _ => simp [Control.apply, marksOf, actTask]

def since (t : Uuid) (c : State) : List Mark := sinceReset (c.log t)

theorem since_apply (c : State) (a : Act) :
    since (actTask a) (apply c a) = (marksOf a).foldl addMarkSince (since (actTask a) c) := by
  rw [since, log_apply, sinceReset_append, since]

theorem Same.since {c' : State} (h : Same t c c') : Frame.since t c' = Frame.since t c := by
  rw [Frame.since, h.log, Frame.since]

def approvalAfter : Act → Option ApprovalStatus → Option ApprovalStatus
  | .approve _, _ => some .approved
  | .deny _, _ => some .denied
  | .retry _ _, _ => none
  | _, o => o

theorem approval_apply (c : State) (a : Act) :
    (apply c a).approval (actTask a) = approvalAfter a (c.approval (actTask a)) := by
  cases a with
  | complete s t' ending => cases ending <;> rfl
  | approve | deny | retry => simp [Control.apply, approvalAfter, actTask]
  | _ => rfl

/-! ### Steps -/

/-- The control state of the step `s` after an act. -/
def stepAfter (a : Act) (s : Uuid) (st : StepCtl) : StepCtl :=
  match a with
  | .deny t | .cancel t _ =>
    if st.taskId = t ∧ st.status = .queued then { st with status := .cancelled } else st
  | .retry t _ =>
    if st.taskId = t ∧ (st.status = .failed ∨ st.status = .cancelled)
    then { st with status := .queued, attempts := 0 } else st
  | .requeue s' _ | .failRetry s' _ => if s = s' then { st with status := .queued } else st
  | .drop s' _ => if s = s' then { st with status := .cancelled } else st
  | .expire s' _ | .failFinal s' _ => if s = s' then { st with status := .failed } else st
  | .start s' _ =>
    if s = s' then { st with status := .running, attempts := st.attempts + 1 } else st
  | .complete s' _ _ =>
    if s = s' then if st.status = .running then { st with status := .completed } else st else st
  | .insert _ _ _ _ _ | .gate _ | .approve _ | .record _ _ => st

theorem step_apply {s : Uuid} {st : StepCtl} (a : Act) (h : c.step s = some st) :
    (apply c a).step s = some (stepAfter a s st) := by
  have hmap : ∀ {c' : State} {g : StepCtl → StepCtl}, c'.step s = (c.step s).map g →
      c'.step s = some (g st) := fun hc => by rw [hc, h, Option.map_some]
  cases a with
  | insert => simp [Control.apply, h, stepAfter]
  | complete s' t' ending => cases ending <;> exact hmap rfl
  | gate | approve | record => exact h
  | _ => exact hmap rfl

theorem of_step_apply {s : Uuid} {st : StepCtl} {a : Act} (h : (apply c a).step s = some st) :
    (∃ st₀, c.step s = some st₀ ∧ st = stepAfter a s st₀) ∨
      (c.step s = none ∧ ∃ t r gated steps deps, a = .insert t r gated steps deps ∧
        newStep t r steps s = some st) := by
  cases hc : c.step s with
  | some st₀ => exact Or.inl ⟨st₀, rfl, Option.some.inj (h.symm.trans (step_apply a hc))⟩
  | none =>
    have hmap : ∀ {c' : State} {g : StepCtl → StepCtl}, c'.step s = (c.step s).map g →
        c'.step s = none := fun hc' => by rw [hc', hc, Option.map_none]
    refine Or.inr ⟨rfl, ?_⟩
    cases a with
    | insert t r gated steps deps =>
      exact ⟨t, r, gated, steps, deps, rfl, by simpa [Control.apply, hc] using h⟩
    | gate | approve | record => exact absurd (h.symm.trans hc) (by simp)
    | complete s' t' ending =>
      cases ending <;> exact absurd (h.symm.trans (hmap rfl)) (by simp)
    | _ => exact absurd (h.symm.trans (hmap rfl)) (by simp)

/-- What a step keeps. -/
def Kept (st st' : StepCtl) : Prop :=
  st'.taskId = st.taskId ∧ st'.runId = st.runId ∧ st'.kind = st.kind ∧
    st'.maxAttempts = st.maxAttempts

theorem kept_stepAfter (a : Act) (s : Uuid) (st : StepCtl) : Kept st (stepAfter a s st) := by
  cases a <;> simp only [stepAfter] <;> repeat' split
  all_goals exact ⟨rfl, rfl, rfl, rfl⟩

theorem queued_of_stepAfter {a : Act} {s : Uuid} {st : StepCtl}
    (h : (stepAfter a s st).status = .queued) :
    stepAfter a s st = st ∨ (∃ t gated, a = .retry t gated ∧ st.taskId = t) ∨
      ∃ t, a = .requeue s t ∨ a = .failRetry s t := by
  cases a with
  | retry t gated =>
    by_cases ht : st.taskId = t
    · exact Or.inr (Or.inl ⟨t, gated, rfl, ht⟩)
    · exact Or.inl (if_neg fun h => ht h.1)
  | requeue s' t | failRetry s' t =>
    by_cases hs : s = s'
    · subst hs; exact Or.inr (Or.inr ⟨t, by simp⟩)
    · exact Or.inl (if_neg hs)
  | insert | gate | approve | record => exact Or.inl rfl
  | _ =>
    simp only [stepAfter] at h ⊢
    split_ifs at h ⊢ <;> exact Or.inl rfl

theorem step_kept (a : Act) {s : Uuid} {st : StepCtl} (h : c.step s = some st) :
    ∃ st', (apply c a).step s = some st' ∧ Kept st st' :=
  ⟨_, step_apply a h, kept_stepAfter a s st⟩

theorem stepOf_kept (a : Act) {s : Uuid} {st : StepCtl} (h : StepOf c s t st) :
    ∃ st', StepOf (apply c a) s t st' ∧ Kept st st' := by
  obtain ⟨st', hs, hk⟩ := step_kept a h.1
  exact ⟨st', ⟨hs, hk.1.trans h.2⟩, hk⟩

theorem step_apply_cases {a : Act} {s : Uuid} {st : StepCtl} (he : Enabled c a) (h : (apply c a).step s = some st) :
    (∃ st₀, c.step s = some st₀ ∧ st = stepAfter a s st₀ ∧ st.taskId = st₀.taskId ∧
      st.runId = st₀.runId) ∨
    ∃ t r g ss ds, a = .insert t r g ss ds ∧ c.step s = none ∧ c.task t = none ∧ c.run r = none ∧
      st.taskId = t ∧ st.runId = r ∧ st.status = .queued := by
  rcases of_step_apply h with ⟨st₀, h₀, rfl⟩ | ⟨h₀, t, r, g, ss, ds, rfl, hnew⟩
  · exact Or.inl ⟨st₀, h₀, rfl, (kept_stepAfter a s st₀).1, (kept_stepAfter a s st₀).2.1⟩
  · obtain ⟨-, ht, hr, hq, -⟩ := newStep_taskId hnew
    exact Or.inr ⟨t, r, g, ss, ds, rfl, h₀, he.1, he.2.1, ht, hr, hq⟩

theorem stepOf_of_apply {a : Act} {s : Uuid} {st : StepCtl} (he : Enabled c a) (htk : (c.task (actTask a)).isSome)
    (h : StepOf (apply c a) s (actTask a) st) :
    ∃ st₀, StepOf c s (actTask a) st₀ ∧ st = stepAfter a s st₀ := by
  rcases step_apply_cases he h.1 with ⟨st₀, h₀, hst, ht, -⟩ | ⟨t, r, g, ss, ds, rfl, -, hnone, -⟩
  · exact ⟨st₀, ⟨h₀, ht.symm.trans h.2⟩, hst⟩
  · simp [actTask, hnone] at htk

end Smara.TaskStore.Frame
