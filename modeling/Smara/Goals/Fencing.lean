import Smara.Goals.Leases

/-! # Stale workers

A worker is stale when its goal has another lease than that of its cycle, or none. All its calls look at
the lease before they write, except `pending`, which inserts a request and logs an event in any case.

* `stale_calls_quiet`: in a run the calls of stale workers leave the ledger alone exactly when none of
  them is `pending`. -/

namespace Smara.Goals.Fencing

open Lib.Machine Lib.Table Lib.Transaction
open TaskStore.Schema (Uuid Time seconds)
open Goals.Schema Goals.Schema.GoalDb Goals.Spec Goals.Actions
open Goals.Cycles Goals.Runs Goals.Effects Goals.Leases

variable {workspaceKey : String → String} {db db' : GoalDb} {uuids : Uuids} {w : World}
  {op : Op workspaceKey} {r : Except Err Reply} {goal : Snapshot} {k : ℕ}
  {call : WorkerCall workspaceKey}

def Stale (goal : Snapshot) (db : GoalDb) : Prop := ∀ g ∈ db.goals, ¬ goal.Holds g

instance (goal : Snapshot) (db : GoalDb) : Decidable (Stale goal db) :=
  inferInstanceAs (Decidable (∀ g ∈ db.goals, _))

def Silent (r : Except Err Reply) : Prop :=
  (∃ e, r = .error e) ∨ r = .ok .done ∨ r = .ok (.response none)

def StaleCall (w : World) (op : Op workspaceKey) : Prop :=
  ∃ k call goal, op = .worker k call ∧ w.cycles[k]? = some goal ∧ Stale goal w.db

def Quiet (uuids : Uuids) (w : World) (op : Op workspaceKey) : Prop :=
  StaleCall w op → (next uuids w op).db = w.db ∧ Silent (reply uuids w op)

def IsPending (op : Op workspaceKey) : Prop := ∃ k env message, op = .worker k (.pending env message)

theorem not_held_of_stale {row : Goal} (hs : Stale goal db) (hrow : db.goal goal.id = some row) :
    row.lease ≠ some goal.lease := by
  obtain ⟨hm, hid⟩ := goal_mem hrow
  exact fun hl => hs row hm ⟨hid, hl⟩

/-- **A call of a stale worker that is not `pending` leaves the ledger alone.** -/
theorem quiet_of_not_pending (hc : w.db.Constraints) (ht : Traced uuids w) (hp : ¬ IsPending op) :
    Quiet uuids w op := by
  rintro ⟨k, call, goal, rfl, hk, hs⟩
  have hd : Does uuids w (.worker k call) (reply uuids w (.worker k call))
      (next uuids w (.worker k call)).db := does_of_reply hc.goals rfl
  generalize reply uuids w (.worker k call) = r at hd
  generalize (next uuids w (.worker k call)).db = db' at hd
  cases hd with
  | failed => exact ⟨rfl, Or.inl ⟨_, rfl⟩⟩
  | idle hi =>
    cases hi with
    | progress => exact ⟨rfl, Or.inr (Or.inl rfl)⟩
    | consume => exact ⟨rfl, Or.inr (Or.inr rfl)⟩
  | attach hk' hheld =>
    rw [hk] at hk'
    cases hk'
    obtain ⟨g, hg, hheld⟩ := hheld
    exact absurd hheld (hs g hg)
  | refuse hk' hrow hlease hactive hover =>
    rw [hk] at hk'
    cases hk'
    exact absurd hlease (not_held_of_stale hs hrow)
  | reserve hk' hrow hlease hactive hroom =>
    rw [hk] at hk'
    cases hk'
    exact absurd hlease (not_held_of_stale hs hrow)
  | progress hk' hheld =>
    rw [hk] at hk'
    cases hk'
    obtain ⟨g, hg, hheld, -⟩ := hheld
    exact absurd hheld (hs g hg)
  | pending hk' hdb => exact absurd ⟨k, _, _, rfl⟩ hp
  | consume hk' hfound =>
    rw [hk] at hk'
    cases hk'
    have hdel := deliverable_some hfound
    obtain ⟨g, hg, -, hl, -⟩ := hdel.goal
    rw [hdel.lease] at hl
    exact absurd (ht.eq_of_lease hg (List.mem_of_getElem? hk) hl) (hs g hg)
  | finish hk' hrow hlease =>
    rw [hk] at hk'
    cases hk'
    exact absurd hlease (not_held_of_stale hs hrow)

theorem pending_commits (env : Env workspaceKey) (goal : Snapshot) (message : Message)
    (hc : w.db.Constraints) (ht : Traced uuids w) : ∃ db', pending env (uuids.draw w.drawn) goal message w.db =
      .ok (uuids.draw w.drawn, db') ∧ db'.Constraints ∧
      db'.goalRequests.length = w.db.goalRequests.length + 1 := by
  refine ⟨_, rfl, ⟨?_, hc.goalFeedback, ?_, hc.budgetBlocked, hc.interactive, hc.telegramUpdates,
    hc.telegramOffsets⟩, by simp⟩
  · refine (keyed_updateWhere fun g _ => ?_).mpr hc.goals
    rfl
  · refine keyed_append.mpr ⟨hc.goalRequests, List.nodup_singleton _, fun r hr r' hr' he => ?_⟩
    obtain rfl := List.mem_singleton.mp hr'
    have hdrawn := (ht.requests r hr).2
    rw [he] at hdrawn
    exact not_drawn hdrawn

/-- **A stale `pending` is not quiet.** -/
theorem not_quiet_of_pending (hc : w.db.Constraints) (ht : Traced uuids w) (hp : IsPending op)
    (hs : StaleCall w op) : ¬ Quiet uuids w op := by
  obtain ⟨k, env, message, rfl⟩ := hp
  obtain ⟨_, _, goal, ho, hk, hstale⟩ := hs
  cases ho
  intro hq
  have hsame := (hq ⟨k, _, goal, rfl, hk, hstale⟩).1
  obtain ⟨db', hbody, hc', hlen⟩ := pending_commits env goal message hc ht
  have hnext : (next uuids w (.worker k (.pending env message))).db = db' := by
    show (result uuids w (.worker k (.pending env message))).2 = db'
    simp only [result, hk, workerCall, replying, transaction]
    rw [commit_of_ok hbody hc']
  rw [← hnext, hsame] at hlen
  omega

theorem stale_calls_quiet (uuids : Uuids) (ops : List (Op workspaceKey)) :
    Along (next uuids) (Quiet uuids) {} ops ↔
      Along (next uuids) (fun w op => StaleCall w op → ¬ IsPending op) {} ops := by
  refine along_iff_of_inv (I := fun w : World => w.db.Constraints ∧ Traced uuids w)
    (fun w op hI _ => ⟨constraints_result hI.1, traced_next hI.1 hI.2⟩) (fun w op hI => ?_)
    ⟨empty_constraints, traced_empty⟩
  constructor
  · exact fun hq hs hp => not_quiet_of_pending hI.1 hI.2 hp hs hq
  · intro hcall hs
    exact quiet_of_not_pending hI.1 hI.2 (hcall hs) hs

/-- The worker of a recovered cycle asks for an approval that nobody can give. -/
theorem stale_pending : ¬ Along (next inOrder) (Quiet inOrder) {}
    [.action (envAt 1) (.create fix (some "a")), .claim (envAt 2) none, .recover (envAt 3),
      .worker 0 (.pending (envAt 4) ⟨.num 1, .commandExecution, .null⟩)] := by
  intro h
  have hlast := h.2.2.2.1 ⟨0, _, ⟨"a", 1⟩, rfl, by decide, by decide⟩
  have hrows := congrArg (fun db => db.goalRequests.length) hlast.1
  exact absurd hrows (by decide)

end Smara.Goals.Fencing
