import Smara.Lib.Machine
import Smara.Goals.Cycles

/-! # Runs of the goal ledger

The ledger is shared by supervisors, workers and clients, whose calls are transactions in some order.
`World` is the ledger with the goals that `claim` has handed out so far: a worker shows the goal of its
cycle. `exec` is one call, with its reply.

* `claim_spec`: a claim pauses goals whose budget is spent, and may then grant one lease. -/

namespace Smara.Goals.Runs

open Lib.Machine Lib.Table Lib.Transaction
open TaskStore.Schema (Uuid Time seconds)
open Goals.Schema Goals.Schema.GoalDb Goals.Spec Goals.Actions
open Goals.Cycles

variable {workspaceKey : String → String}

/-- The states that `execute_cycle` and `run` pass to `finish`. -/
inductive Ending
  | queued | blocked | readyForReview | paused
  deriving DecidableEq

def Ending.state : Ending → GoalState
  | .queued => .queued
  | .blocked => .blocked
  | .readyForReview => .readyForReview
  | .paused => .paused

inductive WorkerCall (workspaceKey : String → String)
  | attach (env : Env workspaceKey) (sessionId : String) (turnId : Option String)
  | reserve (env : Env workspaceKey) (estimate : ℤ)
  | progress (env : Env workspaceKey) (summary : String)
  | pending (env : Env workspaceKey) (message : Message)
  | consumeResponse (requestId : Uuid)
  | finish (env : Env workspaceKey) (checkpoint : Option Checkpoint) (ending : Ending)
      (detail : String) (feedbackIds : List String) (failure : Option Failure)

/-- A call; `worker k` is a call of the worker of the cycle number `k`. -/
inductive Op (workspaceKey : String → String)
  | action (env : Env workspaceKey) (request : Action)
  | claim (env : Env workspaceKey) (identity : Option String)
  | worker (k : ℕ) (call : WorkerCall workspaceKey)
  | respond (env : Env workspaceKey) (id : String) (requestId : Uuid) (allow : Option Bool)
      (answers : Option Json)
  | interactive (env : Env workspaceKey) (workspace owner : String) (busy : Bool)
  | recover (env : Env workspaceKey)

inductive Reply
  | id (identity : String)
  | claimed (goal : Option Goal)
  | done
  | requested (requestId : Uuid)
  | response (answer : Option (Json × Json))

def replying {β : Type} (f : β → Reply) (r : Except Err β × GoalDb) : Except Err Reply × GoalDb :=
  (r.1.map f, r.2)

def workerCall (fresh : Uuid) (goal : Snapshot) (db : GoalDb) :
    WorkerCall workspaceKey → Except Err Reply × GoalDb
  | .attach env sessionId turnId =>
    replying (fun _ => .done) (transaction (attach env goal sessionId turnId) db)
  | .reserve env estimate => replying (fun _ => .done) (reserve env goal estimate db)
  | .progress env summary => replying (fun _ => .done) (transaction (progress env goal summary) db)
  | .pending env message => replying .requested (transaction (pending env fresh goal message) db)
  | .consumeResponse requestId =>
    replying .response (transaction (consumeResponse goal requestId) db)
  | .finish env checkpoint ending detail feedbackIds failure =>
    replying (fun _ => .done)
      (transaction (finish env goal ⟨checkpoint, ending.state, detail, feedbackIds, failure⟩) db)

/-- The ledger, the goals that `claim` has returned, and the number of draws of `uuid4`. -/
structure World where
  db : GoalDb := {}
  cycles : List Snapshot := []
  drawn : ℕ := 0

/-- The reply to a call, and the tables after it. -/
def result (uuids : Uuids) (w : World) : Op workspaceKey → Except Err Reply × GoalDb
  | .action env request =>
    replying .id (transaction (action env (uuids.draw w.drawn) request) w.db)
  | .claim env identity =>
    replying .claimed (transaction (claim env (uuids.draw w.drawn) identity) w.db)
  | .worker k call =>
    match w.cycles[k]? with
    | none => (.error (.runtimeError "Goal lease changed"), w.db)
    | some goal => workerCall (uuids.draw w.drawn) goal w.db call
  | .respond env id requestId allow answers =>
    replying (fun _ => .done) (transaction (respond env id requestId allow answers) w.db)
  | .interactive env workspace owner busy =>
    replying (fun _ => .done) (transaction (interactive env workspace owner busy) w.db)
  | .recover env => replying (fun _ => .done) (transaction (recover env) w.db)

def started : Except Err Reply → List Snapshot
  | .ok (.claimed (some goal)) => (goal.lease.map (Snapshot.mk goal.id)).toList
  | _ => []

/-- **One call.** -/
def exec (uuids : Uuids) (w : World) (op : Op workspaceKey) : Except Err Reply × World :=
  let r := result uuids w op
  (r.1, ⟨r.2, w.cycles ++ started r.1, w.drawn + 1⟩)

def next (uuids : Uuids) (w : World) (op : Op workspaceKey) : World := (exec uuids w op).2

def reply (uuids : Uuids) (w : World) (op : Op workspaceKey) : Except Err Reply := (exec uuids w op).1

abbrev after (uuids : Uuids) (ops : List (Op workspaceKey)) : World := run (next uuids) {} ops

/-! ### Claims -/

/-- `db'` is `db` after pauses of goals whose budget is spent. -/
inductive Pauses (env : Env workspaceKey) (db : GoalDb) : GoalDb → Prop
  | refl : Pauses env db db
  | step {db' : GoalDb} {goal : Goal} : Pauses env db db' → db'.goal goal.id = some goal →
      goal.state = .queued → goal.lease = none → Exhausted goal → Pauses env db (spent env goal.id db')

/-- What a claim that grants a lease has found: the row of the goal, and no work on its project. -/
structure Grantable (env : Env workspaceKey) (goal : Goal) (db : GoalDb) : Prop where
  row : db.goal goal.id = some goal
  state : goal.state = .queued
  lease : goal.lease = none
  free : ¬ Leased (workspaceKey goal.spec.workspace) db
  quiet : ¬ Busy (workspaceKey goal.spec.workspace) env.now db
  budget : ¬ Exhausted goal

/-- What `claim` returns. -/
def handedOut (lease : Uuid) (goal : Goal) : Goal :=
  { goal with lease := some lease, cycles := goal.cycles + 1, state := .running }

variable {env : Env workspaceKey} {db db' : GoalDb}

theorem goal_updGoals {p : Goal → Prop} [DecidablePred p] {f : Goal → Goal} (hf : ∀ g, (f g).id = g.id)
    (id : String) : (db.updGoals p f).goal id = (db.goal id).map fun g => if p g then f g else g :=
  lookup_updateWhere fun g _ => hf g

theorem goal_eq_some (h : Keyed Goal.id db.goals) {id : String} {g : Goal} :
    db.goal id = some g ↔ g ∈ db.goals ∧ g.id = id := lookup_eq_some_iff h

theorem goal_spent {id id' : String} (h : id' ≠ id) : (spent env id db).goal id' = db.goal id' := by
  refine (goal_updGoals (fun g => ?_) id').trans ?_
  · rfl
  cases hg : db.goal id' with
  | none => rfl
  | some g =>
    have hid : g.id ≠ id := by
      rw [(goal_mem hg).2]
      exact h
    simp [hid]

/-- **A claim pauses spent goals, and may then grant a lease on a goal of a free project.** -/
theorem claimFrom_spec {lease : Uuid} {rows : List Goal} {r : Option Goal}
    (hrows : ∀ g ∈ rows, g.state = .queued ∧ g.lease = none) (hkeys : (rows.map Goal.id).Nodup)
    (hdb : ∀ g ∈ rows, db.goal g.id = some g) (h : claimFrom env lease rows db = (r, db')) :
    ∃ db₁, Pauses env db db₁ ∧ ((r = none ∧ db' = db₁) ∨ ∃ goal, Grantable env goal db₁ ∧
      r = some (handedOut lease goal) ∧ db' = granted env lease goal db₁) := by
  have haux : ∀ db₀, Pauses env db db₀ → (∀ g ∈ rows, db₀.goal g.id = some g) →
      claimFrom env lease rows db₀ = (r, db') →
      ∃ db₁, Pauses env db db₁ ∧ ((r = none ∧ db' = db₁) ∨ ∃ goal, Grantable env goal db₁ ∧
        r = some (handedOut lease goal) ∧ db' = granted env lease goal db₁) := by
    clear hdb h
    induction rows with
    | nil =>
      intro db₀ hp _ h
      cases h
      exact ⟨db', hp, Or.inl ⟨rfl, rfl⟩⟩
    | cons goal rows ih =>
      intro db₀ hp hdb h
      have hrest : ∀ g ∈ rows, g.state = .queued ∧ g.lease = none :=
        fun g hg => hrows g (List.mem_cons_of_mem _ hg)
      have hdb' : ∀ g ∈ rows, db₀.goal g.id = some g := fun g hg => hdb g (List.mem_cons_of_mem _ hg)
      obtain ⟨hnew, hkeys'⟩ := List.nodup_cons.mp hkeys
      obtain ⟨hqueued, hfree⟩ := hrows goal List.mem_cons_self
      have hgoal := hdb goal List.mem_cons_self
      unfold claimFrom at h
      dsimp only at h
      by_cases hleased : Leased (workspaceKey goal.spec.workspace) db₀
      · rw [if_pos hleased] at h
        exact ih hrest hkeys' db₀ hp hdb' h
      by_cases hbusy : Busy (workspaceKey goal.spec.workspace) env.now db₀
      · rw [if_neg hleased, if_pos hbusy] at h
        exact ih hrest hkeys' db₀ hp hdb' h
      rw [if_neg hleased, if_neg hbusy] at h
      by_cases hspent : Exhausted goal
      · rw [if_pos hspent] at h
        refine ih hrest hkeys' _ (hp.step hgoal hqueued hfree hspent) (fun g hg => ?_) h
        have hne : g.id ≠ goal.id := fun he => hnew (he ▸ List.mem_map_of_mem hg)
        rw [goal_spent hne]
        exact hdb' g hg
      · rw [if_neg hspent] at h
        cases h
        exact ⟨db₀, hp, Or.inr ⟨goal, ⟨hgoal, hqueued, hfree, hleased, hbusy, hspent⟩, rfl, rfl⟩⟩
  exact haux db Pauses.refl hdb h

theorem claim_spec {lease : Uuid} {identity : Option String} {r : Option Goal}
    (hk : Keyed Goal.id db.goals) (h : claim env lease identity db = .ok (r, db')) :
    ∃ db₁, Pauses env db db₁ ∧ ((r = none ∧ db' = db₁) ∨ ∃ goal, Grantable env goal db₁ ∧
      r = some (handedOut lease goal) ∧ db' = granted env lease goal db₁) := by
  have hmem : ∀ g ∈ candidates env.now identity db, g ∈ db.goals ∧ g.state = .queued ∧ g.lease = none := by
    intro g hg
    rw [candidates, List.mem_insertionSort, List.mem_filter] at hg
    have hp := of_decide_eq_true hg.2
    exact ⟨hg.1, hp.1, hp.2.1⟩
  have hnodup : ((candidates env.now identity db).map Goal.id).Nodup := by
    have hperm := (List.perm_insertionSort (fun g g' : Goal => g.due ≤ g'.due)
      (db.goals.filter fun g => g.state = .queued ∧ g.lease = none ∧ g.due ≤ env.now ∧
        ∀ id ∈ identity, g.id = id)).map Goal.id
    exact hperm.nodup_iff.mpr (hk.sublist (List.filter_sublist.map _))
  refine claimFrom_spec (fun g hg => (hmem g hg).2) hnodup (fun g hg => ?_) (Except.ok.inj h)
  exact (goal_eq_some hk).mpr ⟨(hmem g hg).1, rfl⟩

/-! ### A machine to run calls on -/

/-- Every path is a folder of its own. -/
def plainHost : Host id where
  isAbsolute _ := true
  resolve := some
  isDir _ := true
  outputRecord _ _ := none
  isAlnum := Char.isAlphanum
  mentionsNow _ := false
  configuredOrigins _ := .ok ()
  key_resolve h := (Option.some.inj h).symm

def envAt (n : ℤ) : Env id := ⟨seconds n, plainHost⟩

def inOrder : Uuids := ⟨id, Function.injective_id⟩

def fix : SpecRequest where
  workspace := "/project"
  objective := some "Fix the tests"
  successCriteria := some "All tests pass"
  profileId := some "local"

end Smara.Goals.Runs
