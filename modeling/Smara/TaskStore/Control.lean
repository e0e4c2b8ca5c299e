import Smara.Lib.Machine
import Smara.TaskStore.Lifecycle

/-! # The control machine

What the task tables are for, in its own terms: tasks and steps are functions of their ids, and each
act changes the control state of one task. An act that is `Enabled` is one the store may perform;
`Acts P c as c'` is a sequence of enabled acts that satisfy `P`.

The invariants of the control plane are stated on this machine, act by act; `Refine` shows that every
call of the store is such a sequence of acts. -/

namespace Smara.TaskStore.Control

open Lib.Machine TaskStore.Schema TaskStore.Lifecycle

structure TaskCtl where
  status : TaskStatus
  requiresApproval : Bool
  cancelRequested : Bool

/-- The control state of a step. -/
structure StepCtl where
  taskId : Uuid
  runId : Uuid
  status : StepStatus
  attempts : ℕ
  maxAttempts : ℕ
  kind : ExecutorKind

/-- What an event of a task records of its control history. -/
inductive Mark
  | created | approved | denied | retried | started | cancelAsked | stepCompleted | completed
  deriving DecidableEq

/-- Tasks, steps, the task of each run, decisions, dependencies, and the history of each task. -/
structure State where
  task : Uuid → Option TaskCtl
  step : Uuid → Option StepCtl
  run : Uuid → Option Uuid
  approval : Uuid → Option ApprovalStatus
  dep : Uuid → Uuid → Prop
  log : Uuid → List Mark

/-- A creation or a retry begins the history anew. -/
def addMarkSince (ms : List Mark) (m : Mark) : List Mark :=
  if m = .created ∨ m = .retried then [] else ms ++ [m]

def sinceReset (ms : List Mark) : List Mark := ms.foldl addMarkSince []

theorem sinceReset_append (ms ns : List Mark) :
    sinceReset (ms ++ ns) = ns.foldl addMarkSince (sinceReset ms) := List.foldl_append

/-- How a completion ends: with the task cancelled, as the last one, or with steps still open. -/
inductive Ending
  | cancelled | last | pending
  deriving DecidableEq

inductive Act
  | insert (taskId runId : Uuid) (gated : Bool) (steps : List (Uuid × ExecutorKind))
      (deps : List (Uuid × Uuid))
  | gate (taskId : Uuid)
  | approve (taskId : Uuid)
  | deny (taskId : Uuid)
  | cancel (taskId : Uuid) (idle : Bool)
  | retry (taskId : Uuid) (gated : Bool)
  | requeue (stepId taskId : Uuid)
  | drop (stepId taskId : Uuid)
  | expire (stepId taskId : Uuid)
  | start (stepId taskId : Uuid)
  | complete (stepId taskId : Uuid) (ending : Ending)
  | failRetry (stepId taskId : Uuid)
  | failFinal (stepId taskId : Uuid)
  | record (taskId : Uuid) (mark : Mark)

/-- The step an act moves to `running`. -/
def Act.started : Act → Option Uuid
  | .start s _ => some s
  | _ => none

namespace State

def mapTask (g : Uuid → TaskCtl → TaskCtl) (c : State) : State :=
  { c with task := fun i => (c.task i).map (g i) }

def mapStep (g : Uuid → StepCtl → StepCtl) (c : State) : State :=
  { c with step := fun i => (c.step i).map (g i) }

def setTask (i : Uuid) (f : TaskCtl → TaskCtl) (c : State) : State :=
  c.mapTask fun j t => if j = i then f t else t

def setStep (i : Uuid) (f : StepCtl → StepCtl) (c : State) : State :=
  c.mapStep fun j s => if j = i then f s else s

def setTaskStatus (i : Uuid) (status : TaskStatus) (c : State) : State :=
  c.setTask i fun t => { t with status := status }

def setStepStatus (i : Uuid) (status : StepStatus) (c : State) : State :=
  c.setStep i fun s => { s with status := status }

def cancelQueued (taskId : Uuid) (c : State) : State :=
  c.mapStep fun _ s =>
    if s.taskId = taskId ∧ s.status = .queued then { s with status := .cancelled } else s

def setApproval (taskId : Uuid) (a : Option ApprovalStatus) (c : State) : State :=
  { c with approval := Function.update c.approval taskId a }

def addMark (taskId : Uuid) (m : Mark) (c : State) : State :=
  { c with log := Function.update c.log taskId (c.log taskId ++ [m]) }

end State

open State

def newStep (taskId runId : Uuid) (steps : List (Uuid × ExecutorKind)) (i : Uuid) :
    Option StepCtl :=
  (steps.find? fun s => s.1 = i).map fun s => ⟨taskId, runId, .queued, 0, 3, s.2⟩

def apply (c : State) : Act → State
  | .insert t r gated steps deps =>
    addMark t .created { c with
      task := fun i => (c.task i).or (if t = i then some ⟨.queued, gated, false⟩ else none)
      step := fun i => (c.step i).or (newStep t r steps i)
      run := fun i => (c.run i).or (if r = i then some t else none)
      dep := fun s p => c.dep s p ∨ (s, p) ∈ deps }
  | .gate t => c.setTaskStatus t .waitingApproval
  | .approve t =>
    ((c.setApproval t (some .approved)).setTask t fun x =>
      { x with status := .queued, requiresApproval := false }).addMark t .approved
  | .deny t =>
    (((c.setApproval t (some .denied)).setTask t fun x =>
      { x with status := .cancelled, requiresApproval := true }).cancelQueued t).addMark t .denied
  | .cancel t idle =>
    ((c.setTask t fun x =>
      { x with status := if idle then .cancelled else .cancelling
               cancelRequested := true }).cancelQueued t).addMark t .cancelAsked
  | .retry t gated =>
    (((c.mapStep fun _ s =>
      if s.taskId = t ∧ (s.status = .failed ∨ s.status = .cancelled)
      then { s with status := .queued, attempts := 0 } else s).setApproval t none).setTask t fun x =>
        { x with status := if gated then .waitingApproval else .queued
                 requiresApproval := gated, cancelRequested := false }).addMark t .retried
  | .requeue s t =>
    (c.setStepStatus s .queued).setTask t fun x =>
      if x.status = .running then { x with status := .queued } else x
  | .drop s t => (c.setStepStatus s .cancelled).setTaskStatus t .cancelled
  | .expire s t => (c.setStepStatus s .failed).setTaskStatus t .failed
  | .start s t =>
    ((c.setTaskStatus t .running).setStep s fun x =>
      { x with status := .running, attempts := x.attempts + 1 }).addMark t .started
  | .complete s t ending =>
    let c := (c.setStep s fun x =>
      if x.status = .running then { x with status := .completed } else x).addMark t .stepCompleted
    match ending with
    | .cancelled => c.setTaskStatus t .cancelled
    | .last => (c.setTaskStatus t .completed).addMark t .completed
    | .pending => c
  | .failRetry s t => (c.setStepStatus s .queued).setTaskStatus t .queued
  | .failFinal s t => (c.setStepStatus s .failed).setTaskStatus t .failed
  | .record t m => c.addMark t m

/-- The step `s` belongs to the task `t`. -/
def StepOf (c : State) (s t : Uuid) (st : StepCtl) : Prop := c.step s = some st ∧ st.taskId = t

def AwaitsDecision (tk : TaskCtl) : Prop :=
  tk.requiresApproval = true ∧ (tk.status = .queued ∨ tk.status = .waitingApproval)

/-- How `complete_step` ends for the run `r` of the task, once `s` is completed. -/
def EndsWith (c : State) (s : Uuid) (st : StepCtl) (tk : TaskCtl) : Ending → Prop
  | .cancelled => tk.cancelRequested = true
  | .last => tk.cancelRequested = false ∧ ∀ i x, c.step i = some x → x.runId = st.runId →
      x.status = .completed ∨ (i = s ∧ x.status = .running)
  | .pending => tk.cancelRequested = false ∧ ∃ i x, c.step i = some x ∧ x.runId = st.runId ∧
      x.status ≠ .completed ∧ ¬ (i = s ∧ x.status = .running)

/-- **When the store may perform an act.** -/
def Enabled (c : State) : Act → Prop
  | .insert t r _ steps deps =>
    c.task t = none ∧ c.run r = none ∧ (∀ s ∈ steps, c.step s.1 = none) ∧ steps ≠ [] ∧
      ∀ d ∈ deps, (∃ s ∈ steps, s.1 = d.1) ∧ ∃ s ∈ steps, s.1 = d.2
  | .gate t => ∃ tk, c.task t = some tk ∧ tk.requiresApproval = true ∧ tk.status = .queued
  | .approve t => ∃ tk, c.task t = some tk ∧ AwaitsDecision tk
  | .deny t => ∃ tk, c.task t = some tk ∧ AwaitsDecision tk
  | .cancel t idle =>
    (∃ tk, c.task t = some tk ∧ ¬ Terminal tk.status) ∧
      (idle = true ↔ ∀ s st, StepOf c s t st → st.status ≠ .running)
  | .retry t gated =>
    ∃ tk, c.task t = some tk ∧ tk.status = .failed ∧ (∃ s st, StepOf c s t st ∧ st.status = .failed) ∧
      (gated = true ↔ tk.requiresApproval = true ∨
        ∃ s st, StepOf c s t st ∧ (st.kind = .desktop ∨ st.kind = .sandbox))
  | .requeue s t =>
    (∃ st, StepOf c s t st ∧ st.status = .running) ∧
      ∀ tk, c.task t = some tk → tk.cancelRequested = false
  | .drop s t =>
    (∃ st, StepOf c s t st ∧ st.status = .running) ∧
      ∃ tk, c.task t = some tk ∧ tk.cancelRequested = true
  | .expire s t =>
    (∃ st, StepOf c s t st ∧ st.status = .running ∧ st.kind = .desktop) ∧
      ∃ tk, c.task t = some tk ∧ tk.cancelRequested = false
  | .start s t =>
    (∃ st, StepOf c s t st ∧ st.status = .queued) ∧
      (∃ tk, c.task t = some tk ∧ (tk.status = .queued ∨ tk.status = .running) ∧
        ¬ (tk.requiresApproval = true ∧ tk.status = .queued)) ∧
      ∀ p pst, c.dep s p → c.step p = some pst → pst.status = .completed
  | .complete s t ending =>
    ∃ st tk, StepOf c s t st ∧ c.task t = some tk ∧ EndsWith c s st tk ending
  | .failRetry s t => ∃ st tk, StepOf c s t st ∧ c.task t = some tk ∧ st.attempts < st.maxAttempts
  | .failFinal s t => ∃ st tk, StepOf c s t st ∧ c.task t = some tk
  | .record _ _ => True

/-- A sequence of enabled acts, each of which satisfies `P` in the state it meets. -/
def Acts (P : State → Act → Prop) (c : State) (as : List Act) (c' : State) : Prop :=
  Along apply (fun c a => Enabled c a ∧ P c a) c as ∧ run apply c as = c'

section Acts
variable {P Q : State → Act → Prop} {c c' c'' : State} {as bs : List Act}

theorem Acts.nil (c : State) : Acts P c [] c := ⟨trivial, rfl⟩

theorem Acts.single {a : Act} (h : Enabled c a) (hP : P c a) : Acts P c [a] (apply c a) :=
  ⟨⟨⟨h, hP⟩, trivial⟩, rfl⟩

theorem Acts.append (h : Acts P c as c') (h' : Acts P c' bs c'') : Acts P c (as ++ bs) c'' := by
  obtain ⟨h1, rfl⟩ := h
  exact ⟨along_append.mpr ⟨h1, h'.1⟩, by rw [run_append]; exact h'.2⟩

theorem Acts.mono (hPQ : ∀ c a, P c a → Q c a) (h : Acts P c as c') : Acts Q c as c' :=
  ⟨h.1.mono fun c a => And.imp_right (hPQ c a), h.2⟩

theorem Acts.inv {I : State → Prop} (hact : ∀ c a, I c → Enabled c a → P c a → I (apply c a))
    (h : Acts P c as c') (hI : I c) : I c' := by
  obtain ⟨h1, rfl⟩ := h
  exact inv_run (fun c a hI hG => hact c a hI hG.1 hG.2) hI h1

end Acts

/-! ### Reading a state after an update -/

section Read
variable {c : State} {i : Uuid}

@[simp] theorem mapTask_task (g : Uuid → TaskCtl → TaskCtl) :
    (c.mapTask g).task i = (c.task i).map (g i) := rfl
@[simp] theorem mapTask_step (g : Uuid → TaskCtl → TaskCtl) : (c.mapTask g).step = c.step := rfl
@[simp] theorem mapTask_run (g : Uuid → TaskCtl → TaskCtl) : (c.mapTask g).run = c.run := rfl
@[simp] theorem mapTask_approval (g : Uuid → TaskCtl → TaskCtl) :
    (c.mapTask g).approval = c.approval := rfl
@[simp] theorem mapTask_dep (g : Uuid → TaskCtl → TaskCtl) : (c.mapTask g).dep = c.dep := rfl
@[simp] theorem mapTask_log (g : Uuid → TaskCtl → TaskCtl) : (c.mapTask g).log = c.log := rfl

@[simp] theorem mapStep_step (g : Uuid → StepCtl → StepCtl) :
    (c.mapStep g).step i = (c.step i).map (g i) := rfl
@[simp] theorem mapStep_task (g : Uuid → StepCtl → StepCtl) : (c.mapStep g).task = c.task := rfl
@[simp] theorem mapStep_run (g : Uuid → StepCtl → StepCtl) : (c.mapStep g).run = c.run := rfl
@[simp] theorem mapStep_approval (g : Uuid → StepCtl → StepCtl) :
    (c.mapStep g).approval = c.approval := rfl
@[simp] theorem mapStep_dep (g : Uuid → StepCtl → StepCtl) : (c.mapStep g).dep = c.dep := rfl
@[simp] theorem mapStep_log (g : Uuid → StepCtl → StepCtl) : (c.mapStep g).log = c.log := rfl

theorem setTask_task {f : TaskCtl → TaskCtl} {j : Uuid} :
    (c.setTask j f).task i = (c.task i).map fun t => if i = j then f t else t := rfl
@[simp] theorem setTask_task_self {f : TaskCtl → TaskCtl} :
    (c.setTask i f).task i = (c.task i).map f := by simp [setTask_task]
@[simp] theorem setTask_step (f : TaskCtl → TaskCtl) : (c.setTask i f).step = c.step := rfl
@[simp] theorem setTask_approval (f : TaskCtl → TaskCtl) :
    (c.setTask i f).approval = c.approval := rfl
@[simp] theorem setTask_log (f : TaskCtl → TaskCtl) : (c.setTask i f).log = c.log := rfl

@[simp] theorem setTaskStatus_task_self (status : TaskStatus) :
    (c.setTaskStatus i status).task i = (c.task i).map fun t => { t with status := status } :=
  setTask_task_self
@[simp] theorem setTaskStatus_step (status : TaskStatus) :
    (c.setTaskStatus i status).step = c.step := rfl
@[simp] theorem setTaskStatus_approval (status : TaskStatus) :
    (c.setTaskStatus i status).approval = c.approval := rfl
@[simp] theorem setTaskStatus_log (status : TaskStatus) :
    (c.setTaskStatus i status).log = c.log := rfl

theorem setStep_step {f : StepCtl → StepCtl} {j : Uuid} :
    (c.setStep j f).step i = (c.step i).map fun s => if i = j then f s else s := rfl
@[simp] theorem setStep_task (f : StepCtl → StepCtl) : (c.setStep i f).task = c.task := rfl
@[simp] theorem setStep_approval (f : StepCtl → StepCtl) :
    (c.setStep i f).approval = c.approval := rfl
@[simp] theorem setStep_log (f : StepCtl → StepCtl) : (c.setStep i f).log = c.log := rfl
@[simp] theorem setStepStatus_task (status : StepStatus) :
    (c.setStepStatus i status).task = c.task := rfl
@[simp] theorem setStepStatus_approval (status : StepStatus) :
    (c.setStepStatus i status).approval = c.approval := rfl
@[simp] theorem setStepStatus_log (status : StepStatus) :
    (c.setStepStatus i status).log = c.log := rfl
@[simp] theorem cancelQueued_task : (c.cancelQueued i).task = c.task := rfl
@[simp] theorem cancelQueued_approval : (c.cancelQueued i).approval = c.approval := rfl
@[simp] theorem cancelQueued_log : (c.cancelQueued i).log = c.log := rfl

theorem mapTask_mapTask (g h : Uuid → TaskCtl → TaskCtl) :
    (c.mapTask g).mapTask h = c.mapTask fun j t => h j (g j t) := by
  simp [State.mapTask, Option.map_map, Function.comp_def]

theorem setTask_setTask {i : Uuid} (f g : TaskCtl → TaskCtl) :
    (c.setTask i f).setTask i g = c.setTask i fun t => g (f t) := by
  simp only [State.setTask, mapTask_mapTask]
  congr 1
  funext j t
  by_cases h : j = i <;> simp [h]

theorem mapStep_mapStep (g h : Uuid → StepCtl → StepCtl) :
    (c.mapStep g).mapStep h = c.mapStep fun j s => h j (g j s) := by
  simp [State.mapStep, Option.map_map, Function.comp_def]

@[simp] theorem setApproval_task (a : Option ApprovalStatus) :
    (c.setApproval i a).task = c.task := rfl
@[simp] theorem setApproval_step (a : Option ApprovalStatus) :
    (c.setApproval i a).step = c.step := rfl
@[simp] theorem setApproval_run (a : Option ApprovalStatus) : (c.setApproval i a).run = c.run := rfl
@[simp] theorem setApproval_approval (a : Option ApprovalStatus) :
    (c.setApproval i a).approval = Function.update c.approval i a := rfl
@[simp] theorem setApproval_dep (a : Option ApprovalStatus) : (c.setApproval i a).dep = c.dep := rfl
@[simp] theorem setApproval_log (a : Option ApprovalStatus) : (c.setApproval i a).log = c.log := rfl

@[simp] theorem addMark_task (m : Mark) : (c.addMark i m).task = c.task := rfl
@[simp] theorem addMark_step (m : Mark) : (c.addMark i m).step = c.step := rfl
@[simp] theorem addMark_run (m : Mark) : (c.addMark i m).run = c.run := rfl
@[simp] theorem addMark_approval (m : Mark) : (c.addMark i m).approval = c.approval := rfl
@[simp] theorem addMark_dep (m : Mark) : (c.addMark i m).dep = c.dep := rfl
@[simp] theorem addMark_log (m : Mark) :
    (c.addMark i m).log = Function.update c.log i (c.log i ++ [m]) := rfl

end Read

end Smara.TaskStore.Control
