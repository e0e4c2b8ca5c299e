import Mathlib.Data.Fintype.List
import Smara.Lib.Table
import Smara.Lib.Worklist

/-! # Workflows

`DAGWorkflow` keeps its nodes in a dictionary, in the order in which they were added; a node has the ids
of those it depends on, and a status. An operation that raises leaves what it has changed so far, so its
result is a pair of the workflow and of what it returns or raises.

* `validate`: Kahn's algorithm.
* `updateNodeReadiness`, `step`, `runUntilComplete`: the execution, by an executor that may do anything.
* `injectNode`, `retryNode`: changes of the graph while it is executed. -/

namespace Smara.Flow.Schema

open Lib.Table Lib.Worklist

inductive NodeStatus
  | pending | ready | running | completed | failed | blocked | skipped
  deriving DecidableEq

inductive Err
  | valueError (message : String)
  | cycleDetected (remaining : List String)
  | keyError (key : String)
  /-- what the executor raised, if it is not an `Exception` -/
  | interrupted
  deriving DecidableEq

/-- A node, whose results are in `ρ`. -/
structure DAGNode (ρ : Type) where
  id : String
  dependsOn : List String := []
  status : NodeStatus := .pending
  result : Option ρ := none
  error : Option String := none
  retries : ℤ := 0
  maxRetries : ℤ := 2

structure Workflow (ρ : Type) where
  nodes : List (DAGNode ρ) := []
  isPaused : Bool := false

variable {ρ : Type}

namespace Workflow

/-- `self.nodes.get` -/
def node (id : String) (w : Workflow ρ) : Option (DAGNode ρ) := lookup DAGNode.id id w.nodes

/-- `self.nodes` as the list of its keys. -/
def ids (w : Workflow ρ) : List String := w.nodes.map DAGNode.id

def upd (id : String) (f : DAGNode ρ → DAGNode ρ) (w : Workflow ρ) : Workflow ρ :=
  { w with nodes := updateWhere (fun n => n.id = id) f w.nodes }

/-- `self.nodes[key]` -/
def getItem (key : String) (w : Workflow ρ) : Except Err (DAGNode ρ) :=
  match w.node key with
  | some n => .ok n
  | none => .error (.keyError key)

end Workflow

abbrev Left (ρ α : Type) : Type := Workflow ρ × Except Err α

/-- One operation, and the next one unless it raises. -/
def Left.andThen {α β : Type} (r : Left ρ α) (next : α → Workflow ρ → Left ρ β) : Left ρ β :=
  match r with
  | (w, .ok a) => next a w
  | (w, .error e) => (w, .error e)

def addNode (node : DAGNode ρ) (w : Workflow ρ) : Left ρ Unit :=
  if node.id ∈ w.ids then
    (w, .error (.valueError ("Node with id '" ++ node.id ++ "' already exists in workflow.")))
  else ({ w with nodes := w.nodes ++ [node] }, .ok ())

/-! ### Validation -/

def unknownDependency (w : Workflow ρ) : Option (String × String) :=
  (w.nodes.flatMap fun n => n.dependsOn.map fun dep => (n.id, dep)).find? fun e => e.2 ∉ w.ids

def adj (w : Workflow ρ) (dep : String) : List String :=
  w.nodes.flatMap fun n => (n.dependsOn.filter fun d => d = dep).map fun _ => n.id

abbrev Degrees := List (String × ℤ)

def inDegree (w : Workflow ρ) : Degrees := w.nodes.map fun n => (n.id, (n.dependsOn.length : ℤ))

def pending (degrees : Degrees) (queue : List String) : ℕ :=
  (degrees.map fun d => d.2.toNat).sum + queue.length

def lower (neighbor : String) (degrees : Degrees) : Degrees :=
  updateWhere (fun d => d.1 = neighbor) (fun d => (d.1, d.2 - 1)) degrees

theorem lower_cons (neighbor : String) (d : String × ℤ) (degrees : Degrees) :
    lower neighbor (d :: degrees) =
      (if d.1 = neighbor then (d.1, d.2 - 1) else d) :: lower neighbor degrees := rfl

theorem sum_lower_le (neighbor : String) (degrees : Degrees) :
    ((lower neighbor degrees).map fun d => d.2.toNat).sum ≤ (degrees.map fun d => d.2.toNat).sum := by
  induction degrees with
  | nil => exact Nat.le_refl 0
  | cons d degrees ih =>
    rw [lower_cons]
    simp only [List.map_cons, List.sum_cons]
    split_ifs
    · simp only
      omega
    · omega

theorem sum_lower_lt {neighbor : String} {degrees : Degrees}
    (h : (lookup Prod.fst neighbor (lower neighbor degrees)).map Prod.snd = some 0) :
    ((lower neighbor degrees).map fun d => d.2.toNat).sum + 1 ≤
      (degrees.map fun d => d.2.toNat).sum := by
  induction degrees with
  | nil => simp [lower, updateWhere, lookup] at h
  | cons d degrees ih =>
    have hle := sum_lower_le neighbor degrees
    rw [lower_cons] at h ⊢
    unfold lookup at ih h
    simp only [List.map_cons, List.sum_cons]
    split_ifs at h ⊢ with hd
    · rw [List.find?_cons_of_pos (by simpa using hd)] at h
      have hzero : d.2 - 1 = 0 := Option.some.inj h
      simp only
      omega
    · rw [List.find?_cons_of_neg (by simpa using hd)] at h
      have hrest := ih h
      omega

/-- The loop over the neighbours of a node: who has no degree left is queued. -/
def relax : List String → Degrees → List String → Degrees × List String
  | [], degrees, queue => (degrees, queue)
  | neighbor :: neighbors, degrees, queue =>
    if (lookup Prod.fst neighbor (lower neighbor degrees)).map Prod.snd = some 0 then
      relax neighbors (lower neighbor degrees) (queue ++ [neighbor])
    else relax neighbors (lower neighbor degrees) queue

theorem pending_relax_le (neighbors : List String) (degrees : Degrees) (queue : List String) :
    pending (relax neighbors degrees queue).1 (relax neighbors degrees queue).2 ≤
      pending degrees queue := by
  induction neighbors generalizing degrees queue with
  | nil => exact Nat.le_refl _
  | cons neighbor neighbors ih =>
    unfold relax
    split_ifs with h
    · refine (ih _ _).trans ?_
      have hlt := sum_lower_lt h
      unfold pending
      rw [List.length_append, List.length_singleton]
      omega
    · refine (ih _ _).trans ?_
      have hle := sum_lower_le neighbor degrees
      unfold pending
      omega

/-- The loop of Kahn's algorithm: the degrees that are left, and the order. -/
def kahn (adj : String → List String) (degrees : Degrees) (queue order : List String) :
    Degrees × List String :=
  match queue with
  | [] => (degrees, order)
  | curr :: queue =>
    kahn adj (relax (adj curr) degrees queue).1 (relax (adj curr) degrees queue).2 (order ++ [curr])
termination_by pending degrees queue
decreasing_by
  refine (pending_relax_le (adj curr) degrees queue).trans_lt ?_
  unfold pending
  rw [List.length_cons]
  omega

def validate (w : Workflow ρ) : Except Err (List String) :=
  match unknownDependency w with
  | some (id, dep) =>
    .error (.valueError ("Node '" ++ id ++ "' depends on non-existent node '" ++ dep ++ "'."))
  | none =>
    let degrees := inDegree w
    let (rest, order) := kahn (adj w) degrees ((degrees.filter fun d => d.2 = 0).map Prod.fst) []
    if order.length ≠ w.nodes.length then
      .error (.cycleDetected ((rest.filter fun d => 0 < d.2).map Prod.fst))
    else .ok order

/-! ### Readiness -/

/-- `[self.nodes[d] for d in node.depends_on]` -/
def dependencies (n : DAGNode ρ) (w : Workflow ρ) : Except Err (List (DAGNode ρ)) :=
  n.dependsOn.mapM fun d => w.getItem d

/-- The body of the loop of `update_node_readiness`. -/
def judge (id : String) (w : Workflow ρ) : Except Err (Workflow ρ) :=
  match w.node id with
  | none => .ok w
  | some n =>
    if n.status ≠ .pending then .ok w
    else
      match dependencies n w with
      | .error e => .error e
      | .ok deps =>
        if ∃ d ∈ deps, d.status = .failed ∨ d.status = .blocked then
          .ok (w.upd id fun n =>
            { n with status := .blocked, error := some "Blocked by upstream dependency failure." })
        else if ∀ d ∈ deps, d.status = .completed then .ok (w.upd id fun n => { n with status := .ready })
        else .ok w

/-- The loop of `update_node_readiness`. -/
def judgeAll : List String → Workflow ρ → Left ρ Unit
  | [], w => (w, .ok ())
  | id :: ids, w =>
    match judge id w with
    | .error e => (w, .error e)
    | .ok w => judgeAll ids w

def updateNodeReadiness (w : Workflow ρ) : Left ρ Unit := judgeAll w.ids w

def getReadyNodes (w : Workflow ρ) : Left ρ (List String) :=
  (updateNodeReadiness w).andThen fun _ w =>
    (w, .ok ((w.nodes.filter fun n => n.status = .ready).map DAGNode.id))

/-! ### Execution -/

/-- What an executor does with a node. -/
inductive Outcome (ρ : Type)
  | returned (result : ρ)
  | raised (message : String)
  /-- it raises what is not an `Exception` -/
  | interrupted

structure Execution (ρ : Type) where
  node : DAGNode ρ
  workflow : Workflow ρ

/-- An executor: what it does may depend on all its calls so far. -/
abbrev Executor (ρ : Type) : Type := List (Execution ρ) → Outcome ρ

structure Session (ρ : Type) where
  workflow : Workflow ρ := {}
  log : List (Execution ρ) := []

/-- The node after its execution. -/
def settle (outcome : Outcome ρ) (n : DAGNode ρ) : DAGNode ρ :=
  match outcome with
  | .returned result => { n with result := some result, status := .completed, error := none }
  | .raised message =>
    if n.retries < n.maxRetries then
      { n with error := some message, retries := n.retries + 1, status := .ready }
    else { n with error := some message, status := .failed }
  | .interrupted => n

/-- The loop of `step` over the nodes that were ready. -/
def executeAll (executor : Executor ρ) : List String → Session ρ → Session ρ × Except Err Unit
  | [], s => (s, .ok ())
  | id :: ids, s =>
    let running := s.workflow.upd id fun n => { n with status := .running }
    match running.node id with
    | none => (s, .error (.keyError id))
    | some n =>
      let log := s.log ++ [{ node := n, workflow := running }]
      let outcome := executor log
      let next : Session ρ := { workflow := running.upd id (settle outcome), log }
      match outcome with
      | .interrupted => (next, .error .interrupted)
      | _ => executeAll executor ids next

/-- **`step`**: the nodes it has executed. -/
def step (executor : Executor ρ) (s : Session ρ) : Session ρ × Except Err (List String) :=
  if s.workflow.isPaused then (s, .ok [])
  else
    match getReadyNodes s.workflow with
    | (w, .error e) => ({ s with workflow := w }, .error e)
    | (w, .ok []) => ({ s with workflow := w }, .ok [])
    | (w, .ok ids) =>
      match executeAll executor ids { s with workflow := w } with
      | (s, .error e) => (s, .error e)
      | (s, .ok _) =>
        ({ s with workflow := (updateNodeReadiness s.workflow).1 },
          (updateNodeReadiness s.workflow).2.map fun _ => ids)

/-- What `run_until_complete` returns. -/
structure Summary where
  isComplete : Bool
  hasFailures : Bool
  stepsTaken : ℕ
  nodeStatuses : List (String × NodeStatus)

/-- The loop of `run_until_complete`, with the steps that are left; the steps it has taken. -/
def stepAll (executor : Executor ρ) : ℕ → ℕ → Session ρ → Session ρ × Except Err ℕ
  | 0, taken, s => (s, .ok taken)
  | left + 1, taken, s =>
    if s.workflow.isPaused then (s, .ok taken)
    else
      match step executor s with
      | (s, .error e) => (s, .error e)
      | (s, .ok []) => (s, .ok taken)
      | (s, .ok _) => stepAll executor left (taken + 1) s

def summary (taken : ℕ) (w : Workflow ρ) : Summary where
  isComplete := w.nodes.all fun n => n.status ∈ [.completed, .failed, .blocked, .skipped]
  hasFailures := w.nodes.any fun n => n.status = .failed
  stepsTaken := taken
  nodeStatuses := w.nodes.map fun n => (n.id, n.status)

def runUntilComplete (executor : Executor ρ) (maxSteps : ℕ) (s : Session ρ) :
    Session ρ × Except Err Summary :=
  match validate s.workflow with
  | .error e => (s, .error e)
  | .ok _ =>
    match stepAll executor maxSteps 0 s with
    | (s, .error e) => (s, .error e)
    | (s, .ok taken) => (s, .ok (summary taken s.workflow))

/-! ### Changes of the graph -/

/-- An id that is given: neither `None` nor empty. -/
def given (id : Option String) : Option String := id.filter fun id => id ≠ ""

/-- The node that is injected, with the dependency on the one it comes after. -/
def comesAfter (new : DAGNode ρ) (after : Option String) (w : Workflow ρ) : DAGNode ρ :=
  match given after with
  | some id =>
    if id ∈ w.ids ∧ id ∉ new.dependsOn then { new with dependsOn := new.dependsOn ++ [id] } else new
  | none => new

/-- The target that the new node comes before: it depends on the new one, in place of the one that the
new one comes after. -/
def retarget (newId : String) (after : Option String) (target : DAGNode ρ) : DAGNode ρ :=
  let deps := match given after with
    | some id => target.dependsOn.erase id
    | none => target.dependsOn
  { target with dependsOn := if newId ∈ deps then deps else deps ++ [newId] }

/-- The target, in the graph. -/
def comesBefore (newId : String) (after before : Option String) (w : Workflow ρ) : Workflow ρ :=
  match given before with
  | some id => w.upd id (retarget newId after)
  | none => w

def injectNode (new : DAGNode ρ) (after before : Option String) (w : Workflow ρ) : Left ρ Unit :=
  (addNode (comesAfter new after w) (comesBefore new.id after before w)).andThen fun _ w =>
    match validate w with
    | .error e => (w, .error e)
    | .ok _ => updateNodeReadiness w

abbrev Workflow.Key (w : Workflow ρ) : Type := { id : String // id ∈ w.ids }

def downstream (w : Workflow ρ) (dep : w.Key) : List w.Key :=
  w.nodes.attach.flatMap fun n => (n.1.dependsOn.filter fun d => d = dep.1).map fun _ =>
    ⟨n.1.id, List.mem_map_of_mem n.2⟩

def toReset (w : Workflow ρ) (key : w.Key) : Finset w.Key := collect (downstream w) [key] ∅

def rewind (n : DAGNode ρ) : DAGNode ρ :=
  { n with status := .pending, error := none, result := none, retries := 0 }

def rewindAll (ids : Finset String) (w : Workflow ρ) : Workflow ρ :=
  { w with nodes := updateWhere (fun n => n.id ∈ ids) rewind w.nodes }

def retryNode (id : String) (w : Workflow ρ) : Left ρ Unit :=
  if h : id ∈ w.ids then
    updateNodeReadiness (rewindAll ((toReset w ⟨id, h⟩).image Subtype.val) w)
  else (w, .ok ())

/-! ### Calls -/

/-- The calls on a workflow. -/
inductive Call (ρ : Type)
  | addNode (node : DAGNode ρ)
  | step (executor : Executor ρ)
  | runUntilComplete (executor : Executor ρ) (maxSteps : ℕ)
  | injectNode (new : DAGNode ρ) (after before : Option String)
  | retryNode (id : String)
  /-- `is_paused = True` -/
  | pause
  | resume

def Session.change (s : Session ρ) (r : Left ρ Unit) : Session ρ := { s with workflow := r.1 }

def next (s : Session ρ) : Call ρ → Session ρ
  | .addNode node => s.change (addNode node s.workflow)
  | .step executor => (step executor s).1
  | .runUntilComplete executor maxSteps => (runUntilComplete executor maxSteps s).1
  | .injectNode new after before => s.change (injectNode new after before s.workflow)
  | .retryNode id => s.change (retryNode id s.workflow)
  | .pause => { s with workflow := { s.workflow with isPaused := true } }
  | .resume => { s with workflow := { s.workflow with isPaused := false } }

end Smara.Flow.Schema
