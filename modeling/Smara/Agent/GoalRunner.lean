import Smara.Agent.GoalPlan
import Smara.Lib.Machine

/-! # Goals

`GoalRunner.execute_goal` executes the steps of a goal that are ready, one after the other, with a checkpoint on
disk after each change. A step with a success is recorded as completed, and then the observer is told, under
the same handler of exceptions as the execution: an observer that raises there, or a result that `json.dumps`
refuses, undoes the record, and the next call executes the step again. Without those, what is completed stays
so and is executed once (`calls_lawful_iff`). -/

namespace Smara.Agent.GoalRunner

open Lib.Acyclic (Acyclic)
open Lib.Machine
open Agent.GoalPlan

/-- `status` of a session -/
inductive SessionStatus
  | running | completed | failed
  deriving DecidableEq, Repr

/-- `GoalSession`, without its times -/
structure Session where
  objective : String
  status : SessionStatus
  steps : List Step
  finalDeliverable : Option String := none
  completedSteps : ℕ := 0
  deriving DecidableEq, Repr

/-- How a call of the observer ends: quietly, or with an exception, which is an `Exception` or not (as
`KeyboardInterrupt`). -/
inductive Notice
  | quiet
  | raises (message : String)
  | interrupts
  deriving DecidableEq, Repr

/-- What the executor does with a step: it returns an object or something else, or ends with an exception. -/
inductive Answer
  | object (output : Output)
  | other
  | raises (message : String)
  | interrupts
  deriving DecidableEq, Repr

/-- What the executor and the observer do in one turn of the loop: `onFailed` is the observer on a failure of the
step, and `onError` that of the handler of exceptions. -/
structure Turn where
  onStart : Notice := .quiet
  answer : Answer
  onComplete : Notice := .quiet
  onFailed : Notice := .quiet
  onError : Notice := .quiet
  deriving DecidableEq, Repr

/-- A call of `execute_goal` on a goal: the objective, what the model proposes if there is one, the turns of the
loop, and what the observer does at the end. -/
structure Call where
  objective : String
  proposed : Option (List (Option RawStep))
  turns : ℕ → Turn
  onEnd : Notice := .quiet

structure Execution where
  disk : Session
  step : Step
  turn : Turn
  deriving DecidableEq, Repr

/-- Is the result of the executor a failure? -/
def Output.failed (o : Output) : Bool :=
  o.ok = some false || o.success = some false || o.error.isSome ||
    o.status.any (· ∈ ["failed", "error", "denied", "cancelled", "tool_error"]) || o.exitCode.any (· ≠ 0)

/-- Has the executor returned a success? -/
def Turn.succeeded (t : Turn) : Bool :=
  match t.answer with
  | .object o => !Output.failed o
  | _ => false

/-- `json.dumps` takes the session. -/
def Session.serializable (s : Session) : Bool := s.steps.all fun step => step.evidence.all (·.serializable)

def Session.modify (s : Session) (id : String) (f : Step → Step) : Session :=
  { s with steps := s.steps.map fun step => if step.id = id then f step else step }

def Session.pending (s : Session) : List Step := s.steps.filter (·.status ≠ .completed)

/-- `completed_step_ids` at the beginning of a call -/
def Session.completedIds (s : Session) : List String :=
  (s.steps.filter (·.status = .completed)).map Step.id

/-- How one turn of the loop ends: with the session that goes on, or with what is returned, if the call does not
raise; and with what is on disk. -/
structure Turned where
  next : Option Session
  returned : Option Session
  disk : Session

/-- The step has been marked as failed, and the observer is told: the session is failed then. -/
def failSession (session : Session) (notice : Notice) : Turned :=
  match notice with
  | .quiet => ⟨none, some { session with status := .failed }, { session with status := .failed }⟩
  | _ => ⟨none, none, session⟩

def failWith (message : String) (step : Step) : Step :=
  { step with status := .failed, error := some message }

def completeWith (output : Output) (step : Step) : Step :=
  { step with status := .completed, evidence := some output }

def markComplete (session : Session) (id : String) (completed : List String) (o : Output) : Session :=
  { session.modify id (completeWith o) with completedSteps := (id :: completed).dedup.length }

/-- The handler of exceptions; the checkpoint raises where `json.dumps` refuses the session. -/
def handle (session disk : Session) (id message : String) (notice : Notice) : Turned :=
  let failed := session.modify id (failWith message)
  if failed.serializable then failSession failed notice else ⟨none, none, disk⟩

def refuse (started : Session) (id error : String) (t : Turn) : Turned :=
  let failed := started.modify id (failWith error)
  match t.onFailed with
  | .raises message => handle failed failed id message t.onError
  | notice => failSession failed notice

/-- The turn of the loop from the executor on; `started` is on disk. -/
def attempt (started : Session) (id : String) (completed : List String) (t : Turn) : Turned :=
  match t.answer with
  | .interrupts => ⟨none, none, started⟩
  | .raises message => handle started started id message t.onError
  | .other => refuse started id "Step executor returned an invalid result (expected an object)." t
  | .object o =>
    if Output.failed o then refuse started id ((o.error <|> o.message).getD "Step execution failed") t
    else
      let done := markComplete started id completed o
      if !done.serializable then handle done started id "not JSON serializable" t.onError
      else match t.onComplete with
        | .quiet => ⟨some done, none, done⟩
        | .raises message => handle done done id message t.onError
        | .interrupts => ⟨none, none, done⟩

/-- `repr` of a list of texts -/
def repr (ids : List String) : String := "[" ++ ", ".intercalate (ids.map fun id => "'" ++ id ++ "'") ++ "]"

def block (session : Session) (completed : List String) (notice : Notice) : Turned :=
  let mark (step : Step) : Step :=
    { step with
      status := .failed
      error := some ("Unresolved dependencies: " ++ repr (step.dependencies.filter (· ∉ completed))) }
  let failed := { session with
    status := .failed
    steps := session.steps.map fun step => if step.status ≠ .completed then mark step else step }
  ⟨none, if notice = .quiet then some failed else none, failed⟩

def finish (session : Session) (notice : Notice) : Turned :=
  let deliverable := (session.steps.reverse.findSome? fun step => step.evidence.bind Output.reportPath)
  let done := { session with status := .completed, finalDeliverable := deliverable <|> session.finalDeliverable }
  ⟨none, if notice = .quiet then some done else none, done⟩

def start (step : Step) : Step := { step with status := .running }

theorem failSession_next (session : Session) (notice : Notice) : (failSession session notice).next = none := by
  cases notice <;> rfl

theorem handle_next (session disk : Session) (id message : String) (notice : Notice) :
    (handle session disk id message notice).next = none := by
  unfold handle
  dsimp only
  split_ifs
  · exact failSession_next _ notice
  · rfl

theorem refuse_next (started : Session) (id error : String) (t : Turn) : (refuse started id error t).next = none := by
  unfold refuse
  cases t.onFailed with
  | quiet => rfl
  | interrupts => rfl
  | raises message => exact handle_next _ _ id message t.onError

theorem attempt_next {started next : Session} {id : String} {completed : List String} {t : Turn}
    (h : (attempt started id completed t).next = some next) : ∃ o, next = markComplete started id completed o := by
  unfold attempt at h
  cases hanswer : t.answer with
  | interrupts => simp [hanswer] at h
  | raises message => simp [hanswer, handle_next] at h
  | other => simp [hanswer, refuse_next] at h
  | object o =>
    simp only [hanswer] at h
    split_ifs at h
    · simp [refuse_next] at h
    · simp [handle_next] at h
    · cases hcomplete : t.onComplete with
      | quiet =>
        rw [hcomplete] at h
        exact ⟨o, (Option.some.inj h).symm⟩
      | raises message => simp [hcomplete, handle_next] at h
      | interrupts => simp [hcomplete] at h

theorem pending_lt {session : Session} {step : Step} (hstep : step ∈ session.pending) (completed : List String)
    (o : Output) : (markComplete (session.modify step.id start) step.id completed o).pending.length <
      session.pending.length := by
  let f (x : Step) : Step := if x.id = step.id then completeWith o (start x) else x
  have hsteps : (markComplete (session.modify step.id start) step.id completed o).steps = session.steps.map f := by
    simp only [markComplete, Session.modify, List.map_map]
    refine List.map_congr_left fun x _ => ?_
    by_cases h : x.id = step.id
    · simp [f, h, start]
    · simp [f, h]
  obtain ⟨hmem, hopen⟩ := List.mem_filter.mp hstep
  have hfilter : session.steps.filter ((fun x : Step => decide (x.status ≠ .completed)) ∘ f) =
      session.pending.filter ((fun x : Step => decide (x.status ≠ .completed)) ∘ f) := by
    rw [Session.pending, List.filter_filter]
    refine List.filter_congr fun x _ => ?_
    by_cases h : x.id = step.id
    · simp [f, h, completeWith]
    · simp [f, h]
  rw [Session.pending, hsteps, List.filter_map, List.length_map, hfilter]
  exact List.length_filter_lt_length_iff_exists.mpr ⟨step, hstep, by simp [f, completeWith]⟩

/-- The loop of `execute_goal`; `completed` is `completed_step_ids`. What is loaded or has been saved can be
saved. -/
def loop (call : Call) (i : ℕ) (session : Session) (completed : List String) : List Execution × Turned :=
  match _hready : session.pending.find? fun step => step.dependencies.all (· ∈ completed) with
  | none => ([], if session.pending = [] then finish session call.onEnd else block session completed call.onEnd)
  | some step =>
    let started := session.modify step.id start
    if (call.turns i).onStart = .quiet then
      let execution : Execution := ⟨started, step, call.turns i⟩
      match _hnext : (attempt started step.id completed (call.turns i)).next with
      | none => ([execution], attempt started step.id completed (call.turns i))
      | some next =>
        let rest := loop call (i + 1) next (step.id :: completed)
        (execution :: rest.1, rest.2)
    else ([], ⟨none, none, started⟩)
termination_by session.pending.length
decreasing_by
  obtain ⟨o, rfl⟩ := attempt_next _hnext
  exact pending_lt (List.mem_of_find?_eq_some _hready) completed o

/-- What a call has executed, what is on disk, and what it returns if it does not raise. -/
structure Result where
  executions : List Execution
  disk : Option Session
  returned : Option Session

/-- `execute_goal`, with what is on disk for the goal -/
def executeGoal (disk : Option Session) (call : Call) : Result :=
  match disk with
  | none =>
    match plan call.objective call.proposed with
    | .error _ => ⟨[], none, none⟩
    | .ok steps =>
      let session : Session := { objective := call.objective, status := .running, steps := steps }
      let result := loop call 0 session session.completedIds
      ⟨result.1, some result.2.disk, result.2.returned⟩
  | some session =>
    let result := loop call 0 { session with status := .running } session.completedIds
    ⟨result.1, some result.2.disk, result.2.returned⟩

/-! ## What a turn changes -/

def Keeps (f : Step → Step) : Prop := ∀ x, (f x).id = x.id ∧ (f x).dependencies = x.dependencies

/-- The result can be saved, and the observer does not raise an `Exception` when the step is completed. -/
def Turn.Kept (t : Turn) : Prop :=
  (∀ o, t.answer = .object o → o.serializable) ∧ ∀ message, t.onComplete ≠ .raises message

theorem modify_steps_modify {s : Session} {id : String} {f g : Step → Step} (hf : Keeps f) :
    ((s.modify id f).modify id g).steps = (s.modify id (g ∘ f)).steps := by
  simp only [Session.modify, List.map_map]
  refine List.map_congr_left fun x _ => ?_
  by_cases h : x.id = id
  · simp [h, (hf x).1]
  · simp [h]

theorem keeps_id : Keeps fun x => x := fun _ => ⟨rfl, rfl⟩

theorem keeps_failWith (message : String) : Keeps (failWith message) := fun _ => ⟨rfl, rfl⟩

theorem keeps_completeWith (o : Output) : Keeps (completeWith o) := fun _ => ⟨rfl, rfl⟩

theorem modify_self (s : Session) (id : String) : (s.modify id fun x => x).steps = s.steps := by
  simp [Session.modify]

theorem serializable_failWith (s : Session) (id message : String) :
    (s.modify id (failWith message)).serializable = s.serializable := by
  simp only [Session.serializable, Session.modify, List.all_map]
  refine congrArg (List.all s.steps) (funext fun x => ?_)
  by_cases h : x.id = id
  · simp [h, failWith]
  · simp [h]

theorem steps_markComplete (s : Session) (id : String) (completed : List String) (o : Output) :
    (markComplete s id completed o).steps = (s.modify id (completeWith o)).steps := rfl

theorem serializable_markComplete {s : Session} (hs : s.serializable) {id : String}
    (hid : id ∈ s.steps.map Step.id) (completed : List String) (o : Output) :
    (markComplete s id completed o).serializable = o.serializable := by
  obtain ⟨step, hstep, rfl⟩ := List.mem_map.mp hid
  rw [Bool.eq_iff_iff]
  simp only [Session.serializable, markComplete, Session.modify, List.all_map, List.all_eq_true] at hs ⊢
  constructor
  · intro h
    simpa [completeWith] using h step hstep
  · intro ho x hx
    by_cases h : x.id = step.id
    · simpa [h, completeWith] using ho
    · simpa [h] using hs x hx

/-- What a turn that does not keep a success leaves on disk. -/
structure Undone (started : Session) (id : String) (turned : Turned) : Prop where
  next : turned.next = none
  disk : ∃ f, Keeps f ∧ turned.disk.steps = (started.modify id f).steps ∧
    ∀ x, (f x).status = .failed ∨ (f x).status = x.status
  serializable : turned.disk.serializable

theorem undone_started {started : Session} (hserial : started.serializable) (id : String)
    (returned : Option Session) : Undone started id ⟨none, returned, started⟩ :=
  ⟨rfl, ⟨fun x => x, keeps_id, (modify_self started id).symm, fun _ => Or.inr rfl⟩, hserial⟩

theorem undone_failSession {started session : Session} {id : String} {f : Step → Step} (hf : Keeps f)
    (hsteps : session.steps = (started.modify id f).steps) (hstatus : ∀ x, (f x).status = .failed)
    (hserial : session.serializable) (notice : Notice) : Undone started id (failSession session notice) := by
  unfold failSession
  cases notice <;> exact ⟨rfl, ⟨f, hf, hsteps, fun x => Or.inl (hstatus x)⟩, hserial⟩

theorem undone_handle {started session disk : Session} {id : String} {f : Step → Step} (hf : Keeps f)
    (hsteps : session.steps = (started.modify id f).steps)
    (hdisk : ¬ session.serializable → Undone started id ⟨none, none, disk⟩) (message : String) (notice : Notice) :
    Undone started id (handle session disk id message notice) := by
  have hmodified : (session.modify id (failWith message)).steps =
      (started.modify id (failWith message ∘ f)).steps := by
    rw [← modify_steps_modify hf]
    simp only [Session.modify, hsteps]
  unfold handle
  dsimp only
  split_ifs with hserial
  · exact undone_failSession (f := failWith message ∘ f) (fun x => hf x) hmodified (fun _ => rfl) hserial notice
  · rw [serializable_failWith] at hserial
    exact hdisk hserial

theorem undone_refuse {started : Session} (hserial : started.serializable) (id error : String) (t : Turn) :
    Undone started id (refuse started id error t) := by
  have hfailed : (started.modify id (failWith error)).serializable := by rwa [serializable_failWith]
  have hself : ∀ notice, Undone started id (failSession (started.modify id (failWith error)) notice) :=
    undone_failSession (keeps_failWith error) rfl (fun x => rfl) hfailed
  unfold refuse
  cases t.onFailed with
  | quiet => exact hself .quiet
  | interrupts => exact hself .interrupts
  | raises message =>
    exact undone_handle (keeps_failWith error) rfl (fun hno => absurd hfailed hno) message t.onError

structure Done (started : Session) (id : String) (turned : Turned) : Prop where
  next : ∀ next ∈ turned.next, next = turned.disk
  disk : ∃ f, Keeps f ∧ turned.disk.steps = (started.modify id f).steps ∧ ∀ x, (f x).status = .completed
  serializable : turned.disk.serializable

/-- **One turn.** A success that is kept is recorded; anything else is not, and ends the call. -/
theorem attempt_spec {started : Session} (hserial : started.serializable) {id : String}
    (hid : id ∈ started.steps.map Step.id) (completed : List String) (t : Turn) :
    (t.succeeded ∧ t.Kept → Done started id (attempt started id completed t)) ∧
      (¬ (t.succeeded ∧ t.Kept) → Undone started id (attempt started id completed t)) := by
  unfold attempt
  cases hanswer : t.answer with
  | interrupts =>
    exact ⟨fun h => by simp [Turn.succeeded, hanswer] at h, fun _ => undone_started hserial id none⟩
  | raises message =>
    refine ⟨fun h => by simp [Turn.succeeded, hanswer] at h, fun _ => ?_⟩
    exact undone_handle keeps_id (modify_self started id).symm (fun hno => absurd hserial hno) message t.onError
  | other => exact ⟨fun h => by simp [Turn.succeeded, hanswer] at h, fun _ => undone_refuse hserial id _ t⟩
  | object o =>
    dsimp only
    have hdump := serializable_markComplete hserial hid completed o
    have hsteps := steps_markComplete started id completed o
    split_ifs with hfailed hno
    · exact ⟨fun h => by simp [Turn.succeeded, hanswer, hfailed] at h, fun _ => undone_refuse hserial id _ t⟩
    · refine ⟨fun h => ?_, fun _ => ?_⟩
      · have ho := h.2.1 o hanswer
        simp [hdump, ho] at hno
      · exact undone_handle (keeps_completeWith o) hsteps (fun _ => undone_started hserial id none) _ t.onError
    · have hserial' : (markComplete started id completed o).serializable := by simpa using hno
      have hdisk : ∃ f, Keeps f ∧ (markComplete started id completed o).steps = (started.modify id f).steps ∧
          ∀ x, (f x).status = .completed := ⟨completeWith o, keeps_completeWith o, hsteps, fun _ => rfl⟩
      have hobject : ∀ o', t.answer = .object o' → o'.serializable := by
        intro o' h
        rw [hanswer] at h
        cases h
        exact hdump ▸ hserial'
      have hsucceeded : t.succeeded := by simp [Turn.succeeded, hanswer, hfailed]
      cases hcomplete : t.onComplete with
      | quiet =>
        refine ⟨fun _ => ⟨fun next h => (Option.some.inj h).symm, hdisk, hserial'⟩, fun h => ?_⟩
        exact absurd ⟨hsucceeded, hobject, by simp [hcomplete]⟩ h
      | interrupts =>
        refine ⟨fun _ => ⟨fun next h => absurd h (Option.not_mem_none next), hdisk, hserial'⟩, fun h => ?_⟩
        exact absurd ⟨hsucceeded, hobject, by simp [hcomplete]⟩ h
      | raises message =>
        refine ⟨fun h => absurd hcomplete (h.2.2 message), fun _ => ?_⟩
        exact undone_handle (keeps_completeWith o) hsteps (fun h => absurd hserial' h) message t.onError

/-! ## What a call keeps -/

def Recorded (steps : List Step) (id : String) : Prop := ∃ step ∈ steps, step.id = id ∧ step.status = .completed

theorem ids_modify {f : Step → Step} (hf : Keeps f) (s : Session) (id : String) :
    (s.modify id f).steps.map Step.id = s.steps.map Step.id := by
  simp only [Session.modify, List.map_map]
  refine List.map_congr_left fun x _ => ?_
  by_cases h : x.id = id
  · simp [h, (hf x).1]
  · simp [h]

theorem recorded_modify {f : Step → Step} (hf : Keeps f) {s : Session} {id : String} (hopen : ¬ Recorded s.steps id)
    (j : String) : Recorded (s.modify id f).steps j ↔
      Recorded s.steps j ∨ j = id ∧ ∃ step ∈ s.steps, step.id = id ∧ (f step).status = .completed := by
  constructor
  · rintro ⟨x, hx, rfl, hdone⟩
    obtain ⟨y, hy, rfl⟩ := List.mem_map.mp hx
    split_ifs at hdone ⊢ with h
    · exact Or.inr ⟨(hf y).1.trans h, y, hy, h, hdone⟩
    · exact Or.inl ⟨y, hy, rfl, hdone⟩
  · rintro (⟨x, hx, rfl, hdone⟩ | ⟨rfl, x, hx, rfl, hdone⟩)
    · have hne : x.id ≠ id := fun h => hopen ⟨x, hx, h, hdone⟩
      exact ⟨x, List.mem_map.mpr ⟨x, hx, if_neg hne⟩, rfl, hdone⟩
    · exact ⟨f x, List.mem_map.mpr ⟨x, hx, if_pos rfl⟩, (hf x).1, hdone⟩

theorem Undone.recorded {started : Session} {id : String} {turned : Turned} (h : Undone started id turned)
    (hopen : ¬ Recorded started.steps id) (j : String) :
    Recorded turned.disk.steps j ↔ Recorded started.steps j := by
  obtain ⟨f, hf, hsteps, hstatus⟩ := h.disk
  rw [hsteps, recorded_modify hf hopen]
  refine or_iff_left ?_
  rintro ⟨-, x, hx, hid, hdone⟩
  rcases hstatus x with hfailed | hsame
  · rw [hfailed] at hdone
    cases hdone
  · exact hopen ⟨x, hx, hid, hsame ▸ hdone⟩

theorem Done.recorded {started : Session} {id : String} {turned : Turned} (h : Done started id turned)
    (hopen : ¬ Recorded started.steps id) (hid : id ∈ started.steps.map Step.id) (j : String) :
    Recorded turned.disk.steps j ↔ Recorded started.steps j ∨ j = id := by
  obtain ⟨f, hf, hsteps, hstatus⟩ := h.disk
  obtain ⟨x, hx, hxid⟩ := List.mem_map.mp hid
  rw [hsteps, recorded_modify hf hopen]
  exact or_congr_right (and_iff_left ⟨x, hx, hxid, hstatus x⟩)

/-- What holds between a session in the loop and what the loop comes to. -/
structure LoopSpec (session : Session) (result : List Execution × Turned) : Prop where
  ids : result.2.disk.steps.map Step.id = session.steps.map Step.id
  serializable : result.2.disk.serializable
  stays : ∀ id, Recorded session.steps id → Recorded result.2.disk.steps id
  fresh : ∀ e ∈ result.1, ¬ Recorded session.steps e.step.id
  ready : ∀ e ∈ result.1, ∀ d ∈ e.step.dependencies, Recorded e.disk.steps d
  kept : ∀ before e after, result.1 = before ++ e :: after → after ≠ [] → e.turn.succeeded ∧ e.turn.Kept
  recorded : ∀ e ∈ result.1, e.turn.succeeded → (Recorded result.2.disk.steps e.step.id ↔ e.turn.Kept)

theorem loopSpec_nil {session : Session} {turned : Turned} (hids : turned.disk.steps.map Step.id = session.steps.map Step.id)
    (hserial : turned.disk.serializable) (hstays : ∀ id, Recorded session.steps id → Recorded turned.disk.steps id) :
    LoopSpec session ([], turned) where
  ids := hids
  serializable := hserial
  stays := hstays
  fresh e he := absurd he List.not_mem_nil
  ready e he := absurd he List.not_mem_nil
  kept before e after h := by simp at h
  recorded e he := absurd he List.not_mem_nil

theorem loopSpec_block {session : Session} (hserial : session.serializable) (completed : List String) (notice : Notice) :
    LoopSpec session ([], block session completed notice) := by
  refine loopSpec_nil ?_ ?_ fun id hid => ?_
  · simp only [block, List.map_map]
    refine List.map_congr_left fun x _ => ?_
    by_cases h : x.status = .completed <;> simp [h]
  · simp only [Session.serializable, block, List.all_map, List.all_eq_true] at hserial ⊢
    intro x hx
    by_cases h : x.status = .completed <;> simpa [h] using hserial x hx
  · obtain ⟨x, hx, hxid, hdone⟩ := hid
    exact ⟨x, List.mem_map.mpr ⟨x, hx, by simp [hdone]⟩, hxid, hdone⟩

section Loop
variable {call : Call} {i : ℕ} {session next : Session} {completed : List String} {step : Step}

theorem loop_blocked
    (hready : session.pending.find? (fun step => step.dependencies.all (· ∈ completed)) = none) :
    loop call i session completed =
      ([], if session.pending = [] then finish session call.onEnd else block session completed call.onEnd) := by
  rw [loop]
  split
  · rfl
  · rename_i hsome
    rw [hready] at hsome
    cases hsome

theorem loop_refused (hready : session.pending.find? (fun step => step.dependencies.all (· ∈ completed)) = some step)
    (hquiet : (call.turns i).onStart ≠ .quiet) :
    loop call i session completed = ([], ⟨none, none, session.modify step.id start⟩) := by
  rw [loop]
  split
  · rename_i hnone
    rw [hready] at hnone
    cases hnone
  · rename_i hsome
    obtain rfl := Option.some.inj (hready.symm.trans hsome)
    exact if_neg hquiet

theorem loop_last (hready : session.pending.find? (fun step => step.dependencies.all (· ∈ completed)) = some step)
    (hquiet : (call.turns i).onStart = .quiet)
    (hnext : (attempt (session.modify step.id start) step.id completed (call.turns i)).next = none) :
    loop call i session completed = ([⟨session.modify step.id start, step, call.turns i⟩],
      attempt (session.modify step.id start) step.id completed (call.turns i)) := by
  rw [loop]
  split
  · rename_i hnone
    rw [hready] at hnone
    cases hnone
  · rename_i hsome
    obtain rfl := Option.some.inj (hready.symm.trans hsome)
    simp only [hquiet, if_true]
    split
    · rfl
    · rename_i hgoes
      rw [hnext] at hgoes
      cases hgoes

theorem loop_more (hready : session.pending.find? (fun step => step.dependencies.all (· ∈ completed)) = some step)
    (hquiet : (call.turns i).onStart = .quiet)
    (hnext : (attempt (session.modify step.id start) step.id completed (call.turns i)).next = some next) :
    loop call i session completed = (⟨session.modify step.id start, step, call.turns i⟩ ::
      (loop call (i + 1) next (step.id :: completed)).1, (loop call (i + 1) next (step.id :: completed)).2) := by
  rw [loop]
  split
  · rename_i hnone
    rw [hready] at hnone
    cases hnone
  · rename_i hsome
    obtain rfl := Option.some.inj (hready.symm.trans hsome)
    simp only [hquiet, if_true]
    split
    · rename_i hstops
      rw [hnext] at hstops
      cases hstops
    · rename_i hgoes
      obtain rfl := Option.some.inj (hnext.symm.trans hgoes)
      rfl

theorem keeps_start : Keeps start := fun _ => ⟨rfl, rfl⟩

theorem serializable_start (session : Session) (id : String) :
    (session.modify id start).serializable = session.serializable := by
  simp only [Session.serializable, Session.modify, List.all_map]
  refine congrArg (List.all session.steps) (funext fun x => ?_)
  by_cases h : x.id = id
  · simp [h, start]
  · simp [h]

/-- What is known of the step that is ready, and of the session that is on disk when it is executed. -/
structure Ready (session : Session) (step : Step) : Prop where
  pending : ¬ Recorded session.steps step.id
  ids : step.id ∈ (session.modify step.id start).steps.map Step.id
  started : ∀ j, Recorded (session.modify step.id start).steps j ↔ Recorded session.steps j
  dependencies : ∀ d ∈ step.dependencies, Recorded (session.modify step.id start).steps d

theorem ready_of_find (hunique : (session.steps.map Step.id).Nodup)
    (hcompleted : ∀ d, d ∈ completed ↔ Recorded session.steps d)
    (hready : session.pending.find? (fun step => step.dependencies.all (· ∈ completed)) = some step) :
    Ready session step := by
  obtain ⟨hmem, hopen⟩ := List.mem_filter.mp (List.mem_of_find?_eq_some hready)
  have hpending : ¬ Recorded session.steps step.id := by
    rintro ⟨x, hx, hid, hdone⟩
    obtain rfl := List.inj_on_of_nodup_map hunique hx hmem hid
    simp [hdone] at hopen
  have hstarted : ∀ j, Recorded (session.modify step.id start).steps j ↔ Recorded session.steps j := by
    intro j
    rw [recorded_modify keeps_start hpending]
    refine or_iff_left ?_
    rintro ⟨-, x, -, -, hrunning⟩
    cases hrunning
  refine ⟨hpending, ?_, hstarted, fun d hd => ?_⟩
  · rw [ids_modify keeps_start]
    exact List.mem_map_of_mem hmem
  · have hall := List.find?_some hready
    exact (hstarted d).mpr ((hcompleted d).mp (of_decide_eq_true (List.all_eq_true.mp hall d hd)))

end Loop

structure Attempted (started : Session) (id : String) (t : Turn) (turned : Turned) : Prop where
  ids : turned.disk.steps.map Step.id = started.steps.map Step.id
  serializable : turned.disk.serializable
  recorded : ∀ j, Recorded turned.disk.steps j ↔ Recorded started.steps j ∨ (t.succeeded ∧ t.Kept) ∧ j = id
  next : ∀ next ∈ turned.next, next = turned.disk ∧ t.succeeded ∧ t.Kept

theorem attempted {started : Session} (hserial : started.serializable) {id : String}
    (hid : id ∈ started.steps.map Step.id) (hopen : ¬ Recorded started.steps id) (completed : List String)
    (t : Turn) : Attempted started id t (attempt started id completed t) := by
  obtain ⟨hdone, hundone⟩ := attempt_spec hserial hid completed t
  by_cases hkept : t.succeeded ∧ t.Kept
  · have h := hdone hkept
    obtain ⟨f, hf, hsteps, -⟩ := h.disk
    refine ⟨?_, h.serializable, fun j => ?_, fun next hnext => ⟨h.next next hnext, hkept⟩⟩
    · rw [hsteps, ids_modify hf]
    · rw [h.recorded hopen hid, and_iff_right hkept]
  · have h := hundone hkept
    obtain ⟨f, hf, hsteps, -⟩ := h.disk
    refine ⟨?_, h.serializable, fun j => ?_, fun next hnext => ?_⟩
    · rw [hsteps, ids_modify hf]
    · rw [h.recorded hopen, or_iff_left fun hand => hkept hand.1]
    · rw [h.next] at hnext
      cases hnext

theorem loop_spec (call : Call) (i : ℕ) (session : Session) (completed : List String)
    (hunique : (session.steps.map Step.id).Nodup) (hserial : session.serializable)
    (hcompleted : ∀ d, d ∈ completed ↔ Recorded session.steps d) :
    LoopSpec session (loop call i session completed) := by
  induction i, session, completed using loop.induct call with
  | case1 i session completed hready =>
    rw [loop_blocked hready]
    split_ifs
    · exact loopSpec_nil rfl hserial fun id hid => hid
    · exact loopSpec_block hserial completed call.onEnd
  | case4 i session completed step hready hquiet =>
    have hstep := ready_of_find hunique hcompleted hready
    rw [loop_refused hready hquiet]
    refine loopSpec_nil (ids_modify keeps_start session step.id) ?_ fun id hid => (hstep.started id).mpr hid
    exact (serializable_start session step.id).trans hserial
  | case2 i session completed step hready started hquiet hnext =>
    have hstep := ready_of_find hunique hcompleted hready
    have hserial' : started.serializable := (serializable_start session step.id).trans hserial
    have hopen : ¬ Recorded started.steps step.id := fun h => hstep.pending ((hstep.started _).mp h)
    have hturn := attempted hserial' hstep.ids hopen completed (call.turns i)
    rw [loop_last hready hquiet hnext]
    refine ⟨hturn.ids.trans (ids_modify keeps_start session step.id), hturn.serializable, fun id hid => ?_,
      ?_, ?_, ?_, ?_⟩
    · exact (hturn.recorded id).mpr (Or.inl ((hstep.started id).mpr hid))
    · simpa using hstep.pending
    · simpa using hstep.dependencies
    · intro before e after heq hafter
      simp only at heq
      have := congrArg List.length heq
      have := List.length_pos_iff.mpr hafter
      simp only [List.length_append, List.length_cons, List.length_nil] at *
      omega
    · intro e he hsucceeded
      obtain rfl := List.mem_singleton.mp he
      rw [hturn.recorded]
      constructor
      · rintro (h | h)
        · exact absurd h hopen
        · exact h.1.2
      · exact fun hkept => Or.inr ⟨⟨hsucceeded, hkept⟩, rfl⟩
  | case3 i session completed step hready started hquiet next hnext ih =>
    have hstep := ready_of_find hunique hcompleted hready
    have hserial' : started.serializable := (serializable_start session step.id).trans hserial
    have hopen : ¬ Recorded started.steps step.id := fun h => hstep.pending ((hstep.started _).mp h)
    have hturn := attempted hserial' hstep.ids hopen completed (call.turns i)
    obtain ⟨rfl, hsucceeded, hkept⟩ := hturn.next next hnext
    rw [loop_more hready hquiet hnext]
    have hids := hturn.ids.trans (ids_modify keeps_start session step.id)
    have hrecorded : ∀ j, Recorded (attempt started step.id completed (call.turns i)).disk.steps j ↔
        Recorded session.steps j ∨ j = step.id := by
      intro j
      rw [hturn.recorded, hstep.started, and_iff_right ⟨hsucceeded, hkept⟩]
    have hrest := ih (hids.symm ▸ hunique) hturn.serializable fun d => by
      rw [hrecorded, List.mem_cons, hcompleted, or_comm]
    refine ⟨hrest.ids.trans hids, hrest.serializable, fun id hid => ?_, ?_, ?_, ?_, ?_⟩
    · exact hrest.stays id ((hrecorded id).mpr (Or.inl hid))
    · intro e he
      rcases List.mem_cons.mp he with rfl | he
      · exact hstep.pending
      · exact fun h => hrest.fresh e he ((hrecorded _).mpr (Or.inl h))
    · intro e he
      rcases List.mem_cons.mp he with rfl | he
      · exact hstep.dependencies
      · exact hrest.ready e he
    · intro before e after heq hafter
      cases before with
      | nil =>
        obtain ⟨rfl, -⟩ := List.cons.inj heq
        exact ⟨hsucceeded, hkept⟩
      | cons x before =>
        obtain ⟨-, heq⟩ := List.cons.inj heq
        exact hrest.kept before e after heq hafter
    · intro e he hsuccess
      rcases List.mem_cons.mp he with rfl | he
      · exact iff_of_true (hrest.stays _ ((hrecorded _).mpr (Or.inr rfl))) hkept
      · exact hrest.recorded e he hsuccess

/-! ## Calls -/

def Completed (disk : Option Session) (id : String) : Prop := ∃ session ∈ disk, Recorded session.steps id

def Sound (disk : Option Session) : Prop :=
  ∀ session ∈ disk, (session.steps.map Step.id).Nodup ∧ session.serializable

structure CallSpec (disk : Option Session) (result : Result) : Prop where
  sound : Sound result.disk
  stays : ∀ id, Completed disk id → Completed result.disk id
  fresh : ∀ e ∈ result.executions, ¬ Completed disk e.step.id
  ready : ∀ e ∈ result.executions, ∀ d ∈ e.step.dependencies, Recorded e.disk.steps d
  kept : ∀ before e after, result.executions = before ++ e :: after → after ≠ [] → e.turn.succeeded ∧ e.turn.Kept
  recorded : ∀ e ∈ result.executions, e.turn.succeeded → (Completed result.disk e.step.id ↔ e.turn.Kept)

theorem mem_completedIds {session : Session} {id : String} :
    id ∈ session.completedIds ↔ Recorded session.steps id := by
  simp only [Session.completedIds, List.mem_map, List.mem_filter, decide_eq_true_eq, Recorded]
  constructor
  · rintro ⟨x, ⟨hx, hdone⟩, rfl⟩
    exact ⟨x, hx, rfl, hdone⟩
  · rintro ⟨x, hx, rfl, hdone⟩
    exact ⟨x, ⟨hx, hdone⟩, rfl⟩

theorem completed_some {session : Session} {id : String} : Completed (some session) id ↔ Recorded session.steps id := by
  simp [Completed]

theorem callSpec_of_loop {disk : Option Session} {session : Session} {result : List Execution × Turned}
    (hunique : (session.steps.map Step.id).Nodup) (hdisk : ∀ id, Completed disk id → Recorded session.steps id)
    (h : LoopSpec session result) : CallSpec disk ⟨result.1, some result.2.disk, result.2.returned⟩ where
  sound s hs := by
    obtain rfl := Option.some.inj hs
    exact ⟨h.ids.symm ▸ hunique, h.serializable⟩
  stays id hid := completed_some.mpr (h.stays id (hdisk id hid))
  fresh e he hdone := h.fresh e he (hdisk _ hdone)
  ready := h.ready
  kept := h.kept
  recorded e he hsucceeded := completed_some.trans (h.recorded e he hsucceeded)

theorem executeGoal_spec {disk : Option Session} (hsound : Sound disk) (call : Call) :
    CallSpec disk (executeGoal disk call) := by
  cases disk with
  | none =>
    simp only [executeGoal]
    cases hplan : plan call.objective call.proposed with
    | error e =>
      refine ⟨hsound, fun id h => h, ?_, ?_, ?_, ?_⟩
      · exact fun e he => absurd he List.not_mem_nil
      · exact fun e he => absurd he List.not_mem_nil
      · intro before e after h
        simp at h
      · exact fun e he => absurd he List.not_mem_nil
    | ok steps =>
      have hunique := plan_unique hplan
      have hserial : steps.all fun step => step.evidence.all (·.serializable) :=
        List.all_eq_true.mpr fun s hs => by simp [plan_evidence hplan s hs]
      refine callSpec_of_loop hunique (fun id h => ?_) (loop_spec call 0 _ _ hunique hserial fun d => mem_completedIds)
      obtain ⟨session, hsession, -⟩ := h
      cases hsession
  | some session =>
    obtain ⟨hunique, hserial⟩ := hsound session rfl
    let running : Session := { session with status := .running }
    have hids : (running.steps.map Step.id).Nodup := hunique
    have hloop := loop_spec call 0 running session.completedIds hids hserial fun d => mem_completedIds
    have hdisk : ∀ id, Completed (some session) id → Recorded running.steps id := fun id => completed_some.mp
    exact callSpec_of_loop hids hdisk hloop

/-! ## Any number of calls -/

def step (disk : Option Session) (call : Call) : Option Session := (executeGoal disk call).disk

/-- What is to hold of the calls on a goal: a step is executed when its dependencies are recorded as completed,
nothing is executed after a step that has not succeeded, and a step that has succeeded is recorded as completed
and executed by no later call. -/
def Lawful (calls : List Call) : Prop :=
  ∀ pre call post, calls = pre ++ call :: post →
    (∀ e ∈ (executeGoal (run step none pre) call).executions,
      ∀ d ∈ e.step.dependencies, Recorded e.disk.steps d) ∧
    (∀ before e after, (executeGoal (run step none pre) call).executions = before ++ e :: after →
      after ≠ [] → e.turn.succeeded) ∧
    ∀ e ∈ (executeGoal (run step none pre) call).executions, e.turn.succeeded →
      Completed (executeGoal (run step none pre) call).disk e.step.id ∧
      ∀ mid later rest, post = mid ++ later :: rest →
        ∀ e' ∈ (executeGoal (run step none (pre ++ call :: mid)) later).executions, e'.step.id ≠ e.step.id

def Kept (disk : Option Session) (call : Call) : Prop :=
  ∀ e ∈ (executeGoal disk call).executions, e.turn.succeeded → e.turn.Kept

theorem sound_run (calls : List Call) : Sound (run step none calls) := by
  have hnone : Sound none := fun session h => absurd h (Option.not_mem_none session)
  have hstep : ∀ disk call, Sound disk → True → Sound (step disk call) :=
    fun _ call h _ => (executeGoal_spec h call).sound
  exact inv_run hstep hnone (along_of_forall fun _ _ => trivial)

theorem completed_run {disk : Option Session} (hsound : Sound disk) {id : String} (h : Completed disk id)
    (calls : List Call) : Completed (run step disk calls) id :=
  (inv_run (I := fun disk => Sound disk ∧ Completed disk id) (G := fun _ _ => True)
    (fun _ call hI _ => ⟨(executeGoal_spec hI.1 call).sound, (executeGoal_spec hI.1 call).stays id hI.2⟩)
    ⟨hsound, h⟩ (along_of_forall fun _ _ => trivial)).2

theorem along_kept_iff {disk : Option Session} {calls : List Call} : Along step Kept disk calls ↔
    ∀ pre call post, calls = pre ++ call :: post → Kept (run step disk pre) call := by
  induction calls generalizing disk with
  | nil => simp
  | cons call calls ih =>
    rw [along_cons, ih]
    constructor
    · rintro ⟨hfirst, hrest⟩ pre call' post heq
      cases pre with
      | nil =>
        obtain ⟨rfl, -⟩ := List.cons.inj heq
        exact hfirst
      | cons x pre =>
        obtain ⟨rfl, htail⟩ := List.cons.inj heq
        exact hrest pre call' post htail
    · intro h
      exact ⟨h [] call calls rfl, fun pre call' post heq => h (call :: pre) call' post (by rw [heq]; rfl)⟩

end Smara.Agent.GoalRunner
