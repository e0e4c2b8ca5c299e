import Smara.TaskStore.Cancellation

/-! # The task graph

In the runs whose reports are made on running steps:

* `dependencies_completed`: a running or completed step has its transitive dependencies completed.
* `completed_since_retry`: a task is completed if and only if the steps of its run are, and its
  cancellation was not requested since its last retry before the last of them was.
* `task_graph`: if moreover no `fail_step` fails for good a step of a task that was asked to cancel,
  no request before the retry is forgotten either, and a task is completed once.

`Shape` is the invariant of the graph, `Tracked` that of a task with its history. -/

namespace Smara.TaskStore.TaskGraph

open Lib.Machine Lib.Table Lib.Transaction TaskStore.Schema TaskStore.Schema.TaskDb
open TaskStore.Lifecycle TaskStore.Claim TaskStore.Report TaskStore.Calls
open TaskStore.Control TaskStore.View TaskStore.Effects TaskStore.Refine
open TaskStore.Frame TaskStore.Cancellation

variable {db : TaskDb} {s t p : Uuid} {c : State} {a : Act}

/-! ### Proper acts -/

/-- Reports are made on running steps, and the history is not written by hand. -/
def Proper (c : State) : Act → Prop
  | .complete s t _ | .failRetry s t | .failFinal s t => ∃ st, StepOf c s t st ∧ st.status = .running
  | .record _ _ => False
  | _ => True

def Active (status : StepStatus) : Prop := status = .running ∨ status = .completed

theorem completed_stable {st : StepCtl} (hst : c.step s = some st) (hs : st.status = .completed)
    (he : Enabled c a) (hp : Proper c a) : stepAfter a s st = st := by
  have hne : ∀ {s' t' st'}, StepOf c s' t' st' → st'.status = .running → s ≠ s' := by
    rintro s' t' st' ⟨hst', -⟩ hrun rfl
    obtain rfl := Option.some.inj (hst.symm.trans hst')
    simp [hs] at hrun
  cases a with
  | insert | gate | approve => rfl
  | record => exact hp.elim
  | deny | cancel | retry => simp [stepAfter, hs]
  | requeue | drop | expire =>
    obtain ⟨⟨st', h1, h2⟩, -⟩ := he
    first | exact if_neg (hne h1 h2) | exact if_neg (hne h1 h2.1)
  | start s' t =>
    obtain ⟨⟨st', h1, h2⟩, -⟩ := he
    have : s ≠ s' := by
      rintro rfl
      obtain rfl := Option.some.inj (hst.symm.trans h1.1)
      simp [hs] at h2
    exact if_neg this
  | complete s' t ending =>
    obtain ⟨st', h1, h2⟩ := hp
    exact if_neg (hne h1 h2)
  | failRetry s' t =>
    obtain ⟨st', h1, h2⟩ := hp
    exact if_neg (hne h1 h2)
  | failFinal s' t =>
    obtain ⟨st', h1, h2⟩ := hp
    exact if_neg (hne h1 h2)

theorem active_of_stepAfter {st : StepCtl} (h : Active (stepAfter a s st).status) :
    Active st.status ∨ ∃ t, a = .start s t := by
  cases a with
  | start s' t =>
    by_cases hs : s = s'
    · exact Or.inr ⟨t, by rw [hs]⟩
    · exact Or.inl (by simpa [stepAfter, hs] using h)
  | insert | gate | approve | record => exact Or.inl h
  | complete s' t ending =>
    simp only [stepAfter] at h
    split_ifs at h with h1 h2
    · exact Or.inl (Or.inl h2)
    · exact Or.inl h
    · exact Or.inl h
  | _ =>
    simp only [stepAfter] at h
    split_ifs at h <;> first | exact Or.inl h | exact absurd h (by simp [Active])

theorem completed_of_stepAfter {st : StepCtl} (h : (stepAfter a s st).status = .completed) :
    st.status = .completed ∨ ∃ t e, a = .complete s t e ∧ st.status = .running := by
  cases a with
  | complete s' t ending =>
    simp only [stepAfter] at h
    split_ifs at h with h1 h2
    · exact Or.inr ⟨t, ending, by rw [h1], h2⟩
    · exact Or.inl h
    · exact Or.inl h
  | insert | gate | approve | record => exact Or.inl h
  | _ =>
    simp only [stepAfter] at h
    split_ifs at h
    exact Or.inl h

/-! ### The graph -/

/-- The invariant of the graph. -/
structure Shape (c : State) : Prop where
  run : ∀ s st, c.step s = some st → c.run st.runId = some st.taskId ∧ (c.task st.taskId).isSome
  oneRun : ∀ t s s' st st', StepOf c s t st → StepOf c s' t st' → st.runId = st'.runId
  deps : ∀ s p, c.dep s p → (c.step s).isSome ∧ (c.step p).isSome
  closed : ∀ s p st pst, c.dep s p → c.step s = some st → Active st.status →
    c.step p = some pst → pst.status = .completed

theorem run_apply {r t' : Uuid} (a : Act) (h : c.run r = some t') : (apply c a).run r = some t' := by
  cases a with
  | insert => simp [Control.apply, h]
  | complete s t e => cases e <;> exact h
  | _ => exact h

theorem task_isSome_apply (a : Act) (h : (c.task t).isSome) : ((apply c a).task t).isSome := by
  cases a with
  | insert => simp [Control.apply, h]
  | complete s t e => cases e <;> simpa [Control.apply, State.setTaskStatus, setTask_task] using h
  | _ => simpa [Control.apply, State.setTaskStatus, setTask_task] using h

theorem dep_apply (h : (apply c a).dep s p) :
    c.dep s p ∨ ∃ t r g ss ds, a = .insert t r g ss ds ∧ (s, p) ∈ ds := by
  cases a with
  | insert t r g ss ds => exact h.imp_right fun h => ⟨t, r, g, ss, ds, rfl, h⟩
  | complete s t e => cases e <;> exact Or.inl h
  | _ => exact Or.inl h

theorem isSome_newStep {t r : Uuid} {ss : List (Uuid × ExecutorKind)} (h : ∃ x ∈ ss, x.1 = s) :
    (newStep t r ss s).isSome := by
  obtain ⟨x, hx, rfl⟩ := h
  simp only [newStep, Option.isSome_map, List.find?_isSome, decide_eq_true_eq]
  exact ⟨x, hx, rfl⟩

theorem shape_apply (h : Shape c) (he : Enabled c a) (hp : Proper c a) : Shape (apply c a) := by
  refine ⟨fun s st hst => ?_, fun t s s' st st' hst hst' => ?_, fun s p hd => ?_,
    fun s p st pst hd hst hact hpst => ?_⟩
  · rcases step_apply_cases he hst with ⟨st₀, h₀, -, ht, hr⟩ |
      ⟨t, r, g, ss, ds, rfl, -, ht, hr, ht', hr', -⟩
    · rw [ht, hr]
      exact ⟨run_apply a (h.run s st₀ h₀).1, task_isSome_apply a (h.run s st₀ h₀).2⟩
    · rw [ht', hr']
      simp [Control.apply, hr, ht]
  · rcases step_apply_cases he hst.1 with ⟨x, hx, -, hxt, hxr⟩ |
      ⟨t₁, r, g, ss, ds, rfl, -, hnone, -, hxt, hxr, -⟩ <;>
    rcases step_apply_cases he hst'.1 with ⟨y, hy, -, hyt, hyr⟩ |
      ⟨t₂, r', g', ss', ds', ha, -, hnone', -, hyt, hyr, -⟩
    · rw [hxr, hyr]
      exact h.oneRun t s s' x y ⟨hx, hxt.symm.trans hst.2⟩ ⟨hy, hyt.symm.trans hst'.2⟩
    · -- an old step does not belong to the inserted task
      have := (h.run s x hx).2
      rw [show x.taskId = t₂ from hxt.symm.trans (hst.2.trans (hst'.2.symm.trans hyt)), hnone'] at this
      simp at this
    · have := (h.run s' y hy).2
      rw [show y.taskId = t₁ from hyt.symm.trans (hst'.2.trans (hst.2.symm.trans hxt)), hnone] at this
      simp at this
    · simp only [Act.insert.injEq] at ha
      rw [hxr, hyr, ha.2.1]
  · rcases dep_apply hd with hd' | ⟨t, r, g, ss, ds, rfl, hd'⟩
    · obtain ⟨hs, hp⟩ := h.deps s p hd'
      obtain ⟨st, hst⟩ := Option.isSome_iff_exists.mp hs
      obtain ⟨pst, hpst⟩ := Option.isSome_iff_exists.mp hp
      simp [step_apply a hst, step_apply a hpst]
    · obtain ⟨hs, hp⟩ := he.2.2.2.2 _ hd'
      simp [Control.apply, isSome_newStep hs, isSome_newStep hp]
  · rcases dep_apply hd with hd' | ⟨t, r, g, ss, ds, rfl, hd'⟩
    · obtain ⟨hs, hpn⟩ := h.deps s p hd'
      obtain ⟨st₀, h₀⟩ := Option.isSome_iff_exists.mp hs
      obtain ⟨pst₀, hp₀⟩ := Option.isSome_iff_exists.mp hpn
      obtain rfl := Option.some.inj (hst.symm.trans (step_apply a h₀))
      obtain rfl := Option.some.inj (hpst.symm.trans (step_apply a hp₀))
      have hdone : pst₀.status = .completed := by
        rcases active_of_stepAfter hact with hact | ⟨t, rfl⟩
        · exact h.closed s p st₀ pst₀ hd' h₀ hact hp₀
        · exact he.2.2 p pst₀ hd' hp₀
      rw [completed_stable hp₀ hdone he hp]
      exact hdone
    · obtain ⟨⟨x, hx, rfl⟩, -⟩ := he.2.2.2.2 _ hd'
      have hnew : newStep t r ss x.1 = some st := by
        simpa [Control.apply, he.2.2.1 x hx] using hst
      obtain ⟨-, -, -, hq, -⟩ := newStep_taskId hnew
      simp [Active, hq] at hact

/-! ### Completion -/

def CancelBefore (ms : List Mark) : Prop :=
  ∃ pre post, ms = pre ++ .stepCompleted :: post ∧ .cancelAsked ∈ pre

def AllDone (t : Uuid) (c : State) : Prop := ∀ s st, StepOf c s t st → st.status = .completed

/-- The invariant of a task: its status, its steps and its history. -/
structure Tracked (t : Uuid) (c : State) (tk : TaskCtl) : Prop where
  hasStep : ∃ s st, StepOf c s t st
  done : tk.status = .completed → tk.cancelRequested = false ∧ AllDone t c
  allDone : AllDone t c →
    tk.status = .completed ∨ (CancelBefore (since t c) ∧ Terminal tk.status)
  flag : tk.cancelRequested = true ↔ .cancelAsked ∈ since t c
  once : (c.log t).count .completed ≤ 1
  completed : .completed ∈ c.log t → tk.status = .completed

theorem not_allDone {tk : TaskCtl} (htk : c.task (actTask a) = some tk) (h : Tracked (actTask a) c tk)
    (he : Enabled c a) (hp : Proper c a) : ¬ AllDone (actTask a) c := by
  intro hall
  have hterm : Terminal tk.status := (h.allDone hall).elim Or.inl And.right
  have hsame : ∀ {tk'}, c.task (actTask a) = some tk' → tk' = tk :=
    fun h => Option.some.inj (h.symm.trans htk)
  have hrun : ∀ {s st}, StepOf c s (actTask a) st → st.status ≠ .running := fun hst hr => by
    simp [hall _ _ hst] at hr
  cases a with
  | insert t => exact absurd (htk.symm.trans he.1) (by simp)
  | gate t =>
    obtain ⟨tk', htk', -, hs⟩ := he
    obtain rfl := hsame htk'
    simp [Terminal, hs] at hterm
  | approve t | deny t =>
    obtain ⟨tk', htk', -, hs⟩ := he
    obtain rfl := hsame htk'
    rcases hs with hs | hs <;> simp [Terminal, hs] at hterm
  | cancel t idle =>
    obtain ⟨⟨tk', htk', hnt⟩, -⟩ := he
    obtain rfl := hsame htk'
    exact hnt hterm
  | retry t gated =>
    obtain ⟨tk', -, -, ⟨s, st, hst, hf⟩, -⟩ := he
    simp [hall s st hst] at hf
  | requeue s t | drop s t =>
    obtain ⟨⟨st, hst, hr⟩, -⟩ := he
    exact hrun hst hr
  | expire s t =>
    obtain ⟨⟨st, hst, hr, -⟩, -⟩ := he
    exact hrun hst hr
  | start s t =>
    obtain ⟨⟨st, hst, hq⟩, -⟩ := he
    simp [hall s st hst] at hq
  | complete s t ending | failRetry s t | failFinal s t =>
    obtain ⟨st, hst, hr⟩ := hp
    exact hrun hst hr
  | record => exact hp

theorem allDone_of_last (hc : Shape c) (he : Enabled c (.complete s t .last)) :
    AllDone t (apply c (.complete s t .last)) := by
  have he' := he
  obtain ⟨st, tk, hst, htk, -, hall⟩ := he'
  intro i x hx
  obtain ⟨x₀, hx₀, rfl⟩ := stepOf_of_apply he (by simp [actTask, htk]) hx
  rcases hall i x₀ hx₀.1 (hc.oneRun t i s x₀ st hx₀ hst) with h | ⟨rfl, h⟩
  · simp [stepAfter, h]
  · simp [stepAfter, h]

theorem not_allDone_of_pending (hc : Shape c) (he : Enabled c (.complete s t .pending)) :
    ¬ AllDone t (apply c (.complete s t .pending)) := by
  obtain ⟨st, tk, hst, htk, -, i, x, hx, hrun, hx1, hx2⟩ := he
  have hmine : x.taskId = t := Option.some.inj <| by
    rw [← (hc.run i x hx).1, hrun, (hc.run s st hst.1).1, hst.2]
  intro hall
  have := hall i _ ⟨step_apply (.complete s t .pending) hx,
    (kept_stepAfter (.complete s t .pending) i x).1.trans hmine⟩
  rcases completed_of_stepAfter this with h | ⟨t', e', ha, h⟩
  · exact hx1 h
  · simp only [Act.complete.injEq] at ha
    exact hx2 ⟨ha.1.symm, h⟩

theorem taskAfter_completed {tk : TaskCtl} (h : (taskAfter a tk).status = .completed) :
    tk.status = .completed ∨ ∃ s t, a = .complete s t .last := by
  cases a with
  | complete s t e =>
    cases e with
    | last => exact Or.inr ⟨s, t, rfl⟩
    | pending => exact Or.inl h
    | cancelled => simp [taskAfter] at h
  | insert | record => exact Or.inl h
  | _ =>
    simp only [taskAfter] at h
    first
    | exact absurd h (by simp)
    | split_ifs at h <;> exact Or.inl h

theorem completed_mem_marksOf (h : .completed ∈ marksOf a) (hp : Proper c a) :
    ∃ s t, a = .complete s t .last := by
  cases a with
  | complete s t e => cases e <;> simp [marksOf] at h ⊢
  | record => exact hp.elim
  | _ => simp [marksOf] at h

theorem flag_apply {tk : TaskCtl} (ha : ∀ t r g ss ds, a ≠ .insert t r g ss ds) (hp : Proper c a)
    (h : tk.cancelRequested = true ↔ .cancelAsked ∈ since (actTask a) c) :
    (taskAfter a tk).cancelRequested = true ↔ .cancelAsked ∈ since (actTask a) (apply c a) := by
  rw [since_apply]
  cases a with
  | insert => exact absurd rfl (ha _ _ _ _ _)
  | record => exact hp.elim
  | complete s t e => cases e <;> simp [taskAfter, marksOf, addMarkSince, h]
  | requeue s t =>
    simp only [taskAfter, marksOf, List.foldl_nil]
    split_ifs <;> exact h
  | _ => simp [taskAfter, marksOf, addMarkSince, h]

theorem tracked_apply {tk : TaskCtl} (hc : Shape c) (htk : c.task (actTask a) = some tk)
    (h : Tracked (actTask a) c tk) (he : Enabled c a) (hp : Proper c a) :
    Tracked (actTask a) (apply c a) (taskAfter a tk) := by
  have hopen := not_allDone htk h he hp
  have hstatus : tk.status ≠ .completed := fun hs => hopen (h.done hs).2
  have hlog : .completed ∉ c.log (actTask a) := fun hm => hstatus (h.completed hm)
  have hins : ∀ t r g ss ds, a ≠ .insert t r g ss ds := fun t r g ss ds ha => by
    subst ha
    exact absurd (htk.symm.trans he.1) (by simp)
  refine ⟨?_, fun hs => ?_, fun hall => ?_, flag_apply hins hp h.flag, ?_, fun hm => ?_⟩
  · obtain ⟨s, st, hst⟩ := h.hasStep
    obtain ⟨st', hst', -⟩ := stepOf_kept a hst
    exact ⟨s, st', hst'⟩
  · obtain ⟨s, t, rfl⟩ := (taskAfter_completed hs).resolve_left hstatus
    refine ⟨?_, allDone_of_last hc he⟩
    obtain ⟨st, tk', -, htk', hends, -⟩ := he
    obtain rfl := Option.some.inj (htk'.symm.trans htk)
    exact hends
  · -- an open step of the task has been completed by the act
    simp only [AllDone, not_forall] at hopen
    obtain ⟨s, st, hst, hne⟩ := hopen
    obtain ⟨t', e, rfl, -⟩ := (completed_of_stepAfter (hall s _ ⟨step_apply a hst.1,
      (kept_stepAfter a s st).1.trans hst.2⟩)).resolve_left hne
    cases e with
    | last => exact Or.inl rfl
    | pending => exact absurd hall (not_allDone_of_pending hc he)
    | cancelled =>
      obtain ⟨st', tk', -, htk', hends⟩ := he
      obtain rfl := Option.some.inj (htk'.symm.trans htk)
      refine Or.inr ⟨⟨since (actTask (.complete s t' .cancelled)) c, [], ?_, h.flag.mp hends⟩,
        Or.inr (Or.inr rfl)⟩
      rw [since_apply]
      simp [marksOf, addMarkSince]
  · rw [log_apply, List.count_append, List.count_eq_zero.mpr hlog, Nat.zero_add]
    cases a with
    | record => exact hp.elim
    | complete s t e => cases e <;> simp [marksOf]
    | _ => simp [marksOf]
  · rw [log_apply] at hm
    obtain ⟨s, t, rfl⟩ := completed_mem_marksOf ((List.mem_append.mp hm).resolve_left hlog) hp
    rfl

/-- The invariant of the graph and of every task in it. -/
structure Tracks (c : State) : Prop where
  shape : Shape c
  tracked : ∀ t tk, c.task t = some tk → Tracked t c tk
  fresh : ∀ t, c.task t = none → c.log t = []

theorem allDone_same {c' : State} (h : Same t c c') : AllDone t c' ↔ AllDone t c := by
  simp only [AllDone, h.step]

theorem Tracked.same {c' : State} {tk : TaskCtl} (h : Tracked t c tk) (hs : Same t c c') :
    Tracked t c' tk := by
  refine ⟨?_, ?_, ?_, ?_, ?_, ?_⟩
  · simpa only [hs.step] using h.hasStep
  · simpa only [allDone_same hs] using h.done
  · simpa only [allDone_same hs, hs.since] using h.allDone
  · simpa only [hs.since] using h.flag
  · simpa only [hs.log] using h.once
  · simpa only [hs.log] using h.completed

theorem tracked_insert {t r : Uuid} {g : Bool} {ss : List (Uuid × ExecutorKind)}
    {ds : List (Uuid × Uuid)} (hc : Tracks c) (he : Enabled c (.insert t r g ss ds)) :
    Tracked t (apply c (.insert t r g ss ds)) ⟨.queued, g, false⟩ := by
  have hlog : (apply c (.insert t r g ss ds)).log t = [.created] := by
    simpa [marksOf, actTask, hc.fresh t he.1] using log_apply c (.insert t r g ss ds)
  obtain ⟨x, hx⟩ := List.exists_mem_of_ne_nil ss he.2.2.2.1
  obtain ⟨st, hst⟩ := Option.isSome_iff_exists.mp (isSome_newStep (t := t) (r := r) ⟨x, hx, rfl⟩)
  have hnew : StepOf (apply c (.insert t r g ss ds)) x.1 t st :=
    ⟨by simp [Control.apply, he.2.2.1 x hx, hst], (newStep_taskId hst).2.1⟩
  have hqueued : st.status = .queued := (newStep_taskId hst).2.2.2.1
  refine ⟨⟨x.1, st, hnew⟩, by simp, fun hall => ?_, ?_, ?_, ?_⟩
  · simp [hall x.1 st hnew] at hqueued
  · simp [since, hlog, sinceReset, addMarkSince]
  · simp [hlog]
  · simp [hlog]

theorem task_isSome_of_enabled (hc : Shape c) (he : Enabled c a) (hp : Proper c a) :
    (c.task (actTask a)).isSome ∨ ∃ t r g ss ds, a = .insert t r g ss ds := by
  cases a with
  | insert t r g ss ds => exact Or.inr ⟨t, r, g, ss, ds, rfl⟩
  | record => exact hp.elim
  | requeue s t =>
    obtain ⟨⟨st, ⟨hst, rfl⟩, -⟩, -⟩ := he
    exact Or.inl (hc.run s st hst).2
  | complete s t e | failRetry s t | failFinal s t =>
    obtain ⟨st, ⟨hst, rfl⟩, -⟩ := hp
    exact Or.inl (hc.run s st hst).2
  | start s t | drop s t | expire s t =>
    obtain ⟨⟨st, ⟨hst, rfl⟩, -⟩, -⟩ := he
    exact Or.inl (hc.run s st hst).2
  | cancel t idle =>
    obtain ⟨⟨tk, htk, -⟩, -⟩ := he
    exact Or.inl (Option.isSome_iff_exists.mpr ⟨tk, htk⟩)
  | gate t | approve t | deny t | retry t g =>
    obtain ⟨tk, htk, -⟩ := he
    exact Or.inl (Option.isSome_iff_exists.mpr ⟨tk, htk⟩)

theorem tracks_apply (h : Tracks c) (he : Enabled c a) (hp : Proper c a) : Tracks (apply c a) := by
  refine ⟨shape_apply h.shape he hp, fun t tk htk => ?_, fun t ht => ?_⟩
  · by_cases hown : actTask a = t
    · subst hown
      rcases of_task_apply htk with ⟨tk₀, h₀, rfl⟩ | ⟨-, t, r, g, ss, ds, rfl, rfl⟩
      · exact tracked_apply h.shape h₀ (h.tracked _ _ h₀) he hp
      · exact tracked_insert h he
    · have hsame := frame he hown
      exact (h.tracked t tk (hsame.task ▸ htk)).same hsame
  · by_cases hown : actTask a = t
    · subst hown
      rcases task_isSome_of_enabled h.shape he hp with h₀ | ⟨t, r, g, ss, ds, rfl⟩
      · have := task_isSome_apply a h₀
        simp [ht] at this
      · simp [Control.apply, actTask, he.1] at ht
    · have hsame := frame he hown
      rw [hsame.log, h.fresh t (hsame.task ▸ ht)]

/-! ### Cancellations that stand -/

def Heeds (c : State) : Act → Prop
  | .failFinal _ t => ∀ tk, c.task t = some tk → tk.cancelRequested = false
  | _ => True

/-- A task that was ever asked to cancel has its flag up, and is not failed. -/
def Recalled (t : Uuid) (c : State) (tk : TaskCtl) : Prop :=
  (.cancelAsked ∈ c.log t → tk.cancelRequested = true) ∧
    (tk.status = .failed → tk.cancelRequested = false)

theorem recalled_apply {tk : TaskCtl} (htk : c.task (actTask a) = some tk)
    (h : Recalled (actTask a) c tk) (he : Enabled c a) (hp : Proper c a) (hh : Heeds c a) :
    Recalled (actTask a) (apply c a) (taskAfter a tk) := by
  have hsame : ∀ {tk'}, c.task (actTask a) = some tk' → tk' = tk :=
    fun h => Option.some.inj (h.symm.trans htk)
  unfold Recalled
  rw [log_apply, List.mem_append]
  cases a with
  | insert t => exact absurd (htk.symm.trans he.1) (by simp)
  | record => exact hp.elim
  | cancel t idle => cases idle <;> simp [taskAfter]
  | retry t g =>
    obtain ⟨tk', htk', hf, -⟩ := he
    obtain rfl := hsame htk'
    refine ⟨fun hm => ?_, fun _ => rfl⟩
    have hm := h.1 (hm.resolve_right (by simp [marksOf]))
    simp [h.2 hf] at hm
  | expire s t =>
    obtain ⟨-, tk', htk', hc⟩ := he
    obtain rfl := hsame htk'
    exact ⟨fun hm => h.1 (hm.resolve_right (by simp [marksOf])), fun _ => hc⟩
  | failFinal s t => exact ⟨fun hm => h.1 (hm.resolve_right (by simp [marksOf])), fun _ => hh tk htk⟩
  | requeue s t =>
    simp only [taskAfter, marksOf, List.not_mem_nil, or_false]
    split_ifs
    · exact ⟨h.1, by simp⟩
    · exact h
  | complete s t e =>
    cases e with
    | pending => simpa [taskAfter, marksOf, Recalled] using h
    | last | cancelled => simpa [taskAfter, marksOf] using h.1
  | _ => simpa [taskAfter, marksOf] using h.1

def AllRecalled (c : State) : Prop := ∀ t tk, c.task t = some tk → Recalled t c tk

theorem allRecalled_apply (hc : Tracks c) (h : AllRecalled c) (he : Enabled c a) (hp : Proper c a)
    (hh : Heeds c a) : AllRecalled (apply c a) := by
  intro t tk htk
  by_cases hown : actTask a = t
  · subst hown
    rcases of_task_apply htk with ⟨tk₀, h₀, rfl⟩ | ⟨hnone, t, r, g, ss, ds, rfl, rfl⟩
    · exact recalled_apply h₀ (h _ _ h₀) he hp hh
    · refine ⟨fun hm => ?_, fun _ => rfl⟩
      rw [log_apply, hc.fresh _ hnone] at hm
      simp [marksOf] at hm
  · have hsame := frame he hown
    unfold Recalled
    rw [hsame.log]
    exact h t tk (hsame.task ▸ htk)

/-! ### The graph of the tables -/

/-- The step `s` directly depends on the step `p`. -/
def DependsOn (db : TaskDb) (s p : Uuid) : Prop := ⟨s, p⟩ ∈ db.taskStepDependencies

/-- Running and completed steps have their transitive dependencies completed. -/
def DependenciesCompleted (db : TaskDb) : Prop :=
  ∀ row ∈ db.taskSteps, row.status = .running ∨ row.status = .completed →
    ∀ parent ∈ db.taskSteps, Relation.TransGen (DependsOn db) row.id parent.id →
      parent.status = .completed

def RunCompleted (t : Uuid) (db : TaskDb) : Prop :=
  ∀ r ∈ db.taskRuns, r.taskId = t → ∀ row ∈ db.taskSteps, row.taskRunId = r.id →
    row.status = .completed

def CancelledBefore (t : Uuid) (events : List TaskEvent) : Prop :=
  ∃ pre e post, events = pre ++ e :: post ∧ (e.taskId = t ∧ e.type = "step.completed") ∧
    ∃ x ∈ pre, x.taskId = t ∧ x.type = "task.cancel_requested"

/-- **The invariant of the claim**, on the tables. -/
structure GraphInvariant (db : TaskDb) : Prop where
  dependencies : DependenciesCompleted db
  completed : ∀ task ∈ db.tasks, task.status = .completed ↔
    RunCompleted task.id db ∧ ¬ CancelledBefore task.id db.taskEvents
  once : ∀ task ∈ db.tasks,
    (db.taskEvents.countP fun e => e.taskId = task.id ∧ e.type = "task.completed") ≤ 1

/-! ### Reading the invariant off the tables -/

theorem markOf_eq {type : String} :
    (markOf type = some .completed ↔ type = "task.completed") ∧
      (markOf type = some .stepCompleted ↔ type = "step.completed") ∧
      (markOf type = some .cancelAsked ↔ type = "task.cancel_requested") := by
  unfold markOf
  split <;> simp_all

theorem mem_history {events : List TaskEvent} {m : Mark} :
    m ∈ history events t ↔ ∃ e ∈ events, e.taskId = t ∧ markOf e.type = some m := by
  simp [history, and_assoc]

theorem cancelledBefore_iff {events : List TaskEvent} :
    CancelledBefore t events ↔ CancelBefore (history events t) := by
  constructor
  · rintro ⟨pre, e, post, rfl, ⟨ht, htype⟩, x, hx, hxt, hxtype⟩
    refine ⟨history pre t, history post t, ?_,
      mem_history.mpr ⟨x, hx, hxt, markOf_eq.2.2.mpr hxtype⟩⟩
    simp [history, ht, markOf_eq.2.1.mpr htype]
  · rintro ⟨pre, post, h, hpre⟩
    rw [history, List.filterMap_filter, List.filterMap_eq_append_iff] at h
    obtain ⟨l₁, l₂, rfl, rfl, h₂⟩ := h
    obtain ⟨l₃, e, l₄, rfl, -, he, -⟩ := List.filterMap_eq_cons_iff.mp h₂
    have hmark : e.taskId = t ∧ markOf e.type = some .stepCompleted := by simpa using he
    obtain ⟨x, hx, hxm⟩ := List.mem_filterMap.mp hpre
    have hxmark : x.taskId = t ∧ markOf x.type = some .cancelAsked := by simpa using hxm
    exact ⟨l₁ ++ l₃, e, l₄, by simp, ⟨hmark.1, markOf_eq.2.1.mp hmark.2⟩, x,
      List.mem_append_left _ hx, hxmark.1, markOf_eq.2.2.mp hxmark.2⟩

theorem count_completed {events : List TaskEvent} :
    (history events t).count .completed =
      events.countP fun e => e.taskId = t ∧ e.type = "task.completed" := by
  rw [history, List.filterMap_filter, List.count, List.countP_filterMap]
  refine List.countP_congr fun e _ => ?_
  by_cases ht : e.taskId = t
  · cases hm : markOf e.type <;> simp [ht, ← markOf_eq.1, hm]
  · simp [ht]

theorem exists_sinceReset (ms : List Mark) : ∃ pre, ms = pre ++ sinceReset ms := by
  induction ms using List.reverseRecOn with
  | nil => exact ⟨[], rfl⟩
  | append_singleton ms m ih =>
    rw [sinceReset_append, List.foldl_cons, List.foldl_nil, addMarkSince]
    split_ifs
    · exact ⟨ms ++ [m], by simp⟩
    · obtain ⟨pre, h⟩ := ih
      exact ⟨pre, by rw [← List.append_assoc, ← h]⟩

theorem CancelBefore.of_since (h : CancelBefore (since t c)) : CancelBefore (c.log t) := by
  obtain ⟨pre, post, he, hm⟩ := h
  obtain ⟨old, ho⟩ := exists_sinceReset (c.log t)
  exact ⟨old ++ pre, post, by rw [List.append_assoc, ← he]; exact ho, List.mem_append_right _ hm⟩

theorem runCompleted_iff (h : db.Constraints) (hc : Shape (view db)) :
    RunCompleted t db ↔ AllDone t (view db) := by
  have hk := keys_of_constraints h
  have hrun : ∀ {r i}, (view db).run r = some i ↔ ∃ x ∈ db.taskRuns, x.id = r ∧ x.taskId = i := by
    intro r i
    simp [view, Option.map_eq_some_iff, lookup_eq_some_iff h.taskRuns, and_assoc]
  constructor
  · intro hall s st hst
    obtain ⟨row, hm, rfl, ht, rfl⟩ := (stepOf_iff hk).mp hst
    obtain ⟨r, hr, hid, hrt⟩ := hrun.mp (hc.run row.id _ hst.1).1
    exact hall r hr (hrt.trans ht) row hm hid.symm
  · intro hall r hr ht row hm hid
    refine hall row.id (stepCtl row) ⟨view_step_of_mem hk hm, ?_⟩
    have h1 := (hc.run row.id _ (view_step_of_mem hk hm)).1
    exact Option.some.inj (h1.symm.trans (hrun.mpr ⟨r, hr, hid.symm, ht⟩))

theorem dependenciesCompleted_of_shape (h : db.Constraints) (hc : Shape (view db)) :
    DependenciesCompleted db := by
  have hk := keys_of_constraints h
  intro row hrow hact parent hparent hdep
  have hstep : ∀ {p}, Relation.TransGen (DependsOn db) row.id p →
      ∃ pst, (view db).step p = some pst ∧ pst.status = .completed := by
    intro p hp
    induction hp with
    | single hd =>
      obtain ⟨pst, hpst⟩ := Option.isSome_iff_exists.mp (hc.deps row.id _ hd).2
      exact ⟨pst, hpst, hc.closed row.id _ _ _ hd (view_step_of_mem hk hrow) hact hpst⟩
    | tail _ hd ih =>
      obtain ⟨qst, hq, hdone⟩ := ih
      obtain ⟨pst, hpst⟩ := Option.isSome_iff_exists.mp (hc.deps _ _ hd).2
      exact ⟨pst, hpst, hc.closed _ _ _ _ hd hq (Or.inr hdone) hpst⟩
  obtain ⟨pst, hpst, hdone⟩ := hstep hdep
  rw [view_step_of_mem hk hparent, Option.some.injEq] at hpst
  rw [← hpst] at hdone
  exact hdone

theorem graphInvariant_of_tracks (h : db.Constraints) (hc : Tracks (view db))
    (hr : AllRecalled (view db)) : GraphInvariant db := by
  have hk := keys_of_constraints h
  refine ⟨dependenciesCompleted_of_shape h hc.shape, fun task ht => ?_, fun task ht => ?_⟩
  · have htk := view_task_of_mem hk ht
    have htr := hc.tracked _ _ htk
    rw [runCompleted_iff h hc.shape, cancelledBefore_iff]
    constructor
    · intro hs
      obtain ⟨hflag, hall⟩ := htr.done hs
      refine ⟨hall, fun ⟨pre, post, he, hm⟩ => ?_⟩
      have := (hr _ _ htk).1 (by rw [show (view db).log task.id = _ from he]; simp [hm])
      simp [hflag] at this
    · rintro ⟨hall, hnot⟩
      exact (htr.allDone hall).resolve_right fun hb => hnot hb.1.of_since
  · exact count_completed ▸ (hc.tracked _ _ (view_task_of_mem hk ht)).once

/-! ### Runs -/

/-- A `complete_step` or `fail_step` is made for a running step. -/
def ReportsRunning (db : TaskDb) : Call → Prop
  | .completeStep _ s a _ _ _ | .failStep _ s a _ _ _ =>
    ∀ row ∈ ownedStep s a db, row.status = .running
  | _ => True

/-- The call is a `fail_step` that fails for good a step whose task was asked to cancel. -/
def FailsCancelled (db : TaskDb) : Call → Prop
  | .failStep _ s a _ _ retryable => ∃ row ∈ ownedStep s a db, ¬ Retries retryable row ∧
      ∃ task ∈ lookup Task.id row.taskId db.tasks, task.cancelRequested = true
  | _ => False

instance (db : TaskDb) (call : Call) : Decidable (ReportsRunning db call) := by
  apply @Call.casesOn (fun call => Decidable (ReportsRunning db call)) call <;> intros <;>
    unfold ReportsRunning <;> infer_instance

instance (db : TaskDb) (call : Call) : Decidable (FailsCancelled db call) := by
  apply @Call.casesOn (fun call => Decidable (FailsCancelled db call)) call <;> intros <;>
    unfold FailsCancelled <;> infer_instance

theorem proper_of_mayDo {call : Call} (hk : Keys db) (hu : Unforged call)
    (hr : ReportsRunning db call) (hm : MayDo db call c a) : Proper c a := by
  have hrun : ∀ {s x row}, ownedStep s x db = some row → row.status = .running →
      ∃ st, StepOf (view db) s row.taskId st ∧ st.status = .running := fun hrow hs => by
    obtain ⟨hm, rfl, -⟩ := ownedStep_eq_some hrow
    exact ⟨_, stepOf_of_mem hk hm, hs⟩
  cases hm with
  | completeStep h => exact hrun h (hr _ h)
  | failRetry h | failFinal h => exact hrun h (hr _ h)
  | completeDesktop h => exact h
  | failRetryDesktop _ _ h => exact h
  | failFinalDesktop h => exact h
  | record h => simp [Unforged, h] at hu
  | _ => trivial

theorem heeds_of_mayDo {call : Call} (hf : ¬ FailsCancelled db call) (hm : MayDo db call c a) :
    Heeds c a := by
  cases hm with
  | failFinal h hr =>
    intro tk htk
    obtain ⟨task, ht, rfl⟩ := Option.map_eq_some_iff.mp htk
    by_contra hc
    exact hf ⟨_, h, hr, task, ht, by simpa [taskCtl] using hc⟩
  | failFinalDesktop _ hc =>
    intro tk htk
    obtain ⟨tk', htk', hflag⟩ := hc
    exact (Option.some.inj (htk'.symm.trans htk)) ▸ hflag
  | _ => trivial

theorem tracks_empty : Tracks (view {}) :=
  ⟨⟨by simp [view, lookup], by simp [view, lookup, StepOf], by simp [view], by simp [view]⟩,
    by simp [view, lookup], by simp [view, history]⟩

/-- **The task graph.** -/
theorem task_graph {calls : List Call} (hu : ∀ call ∈ calls, Unforged call)
    (hr : Along step ReportsRunning {} calls)
    (hf : Along step (fun db call => ¬ FailsCancelled db call) {} calls) :
    GraphInvariant (run step {} calls) := by
  obtain ⟨hcons, htr, hrec⟩ := inv_run
    (I := fun db => db.Constraints ∧ Tracks (view db) ∧ AllRecalled (view db))
    (G := fun db call => Unforged call ∧ ReportsRunning db call ∧ ¬ FailsCancelled db call)
    (fun db call hI hG => ⟨constraints_step call hI.1,
      inv_step (I := fun c => Tracks c ∧ AllRecalled c) hI.1 (fun _ _ hc he hm =>
        have hp := proper_of_mayDo (keys_of_constraints hI.1) hG.1 hG.2.1 hm
        ⟨tracks_apply hc.1 he hp, allRecalled_apply hc.1 hc.2 he hp (heeds_of_mayDo hG.2.2 hm)⟩)
        hI.2⟩)
    ⟨constraints_empty, tracks_empty, fun t tk htk => by simp [view, lookup] at htk⟩
    (along_and.mpr ⟨along_of_forall hu, along_and.mpr ⟨hr, hf⟩⟩)
  exact graphInvariant_of_tracks hcons htr hrec

def completing : List Call :=
  [.create (envAt 0) "a" "w" "title" "objective" false [] .hosted,
    .claimOne (envAt 1) "worker" 60 [.hosted], .completeStep (envAt 2) 0 "a" "done" none none]

theorem task_graph_of_completing : GraphInvariant (run step {} completing) :=
  task_graph (by simp [completing, Unforged]) (by decide) (by decide)

/-- A task is cancelled while its step runs, the step fails for good, and the task is retried. -/
def failing : List Call :=
  [.create (envAt 0) "a" "w" "title" "objective" false [] .hosted,
    .claimOne (envAt 1) "worker" 60 [.hosted], .cancel (envAt 2) 0 "a",
    .failStep (envAt 3) 0 "a" "boom" 5 false, .retryTask (envAt 4) 0 "a",
    .claimOne (envAt 5) "worker" 60 [.hosted], .completeStep (envAt 6) 0 "a" "done" none none]

/-- **The claim fails**: the cancelled task is completed. -/
theorem completed_after_cancellation :
    Along step ReportsRunning {} failing ∧ ¬ GraphInvariant (run step {} failing) := by
  refine ⟨by decide, fun h => ?_⟩
  obtain ⟨task, ht, hs⟩ : ∃ task ∈ (run step {} failing).tasks,
    task.id = 0 ∧ task.status = .completed := by decide
  refine ((h.completed task ht).mp hs.2).2 (hs.1 ▸ cancelledBefore_iff.mpr ⟨[.created, .started,
    .cancelAsked, .retried, .started], [.completed], ?_, by decide⟩)
  decide

end Smara.TaskStore.TaskGraph
