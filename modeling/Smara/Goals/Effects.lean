import Smara.Goals.Runs

/-! # What a call has done

* `Does`: the outcomes of a call, in one case for each thing that it can write, with what it has
  checked before.
* `does_exec`: every call has one of these outcomes. -/

namespace Smara.Goals.Effects

open Lib.Table Lib.Transaction
open TaskStore.Schema (Uuid Time seconds)
open Goals.Schema Goals.Schema.GoalDb Goals.Spec Goals.Actions
open Goals.Cycles Goals.Runs

variable {workspaceKey : String → String} {db db' : GoalDb} {uuids : Uuids} {w : World}
  {op : Op workspaceKey}

/-- The calls that may succeed without writing, with their replies. -/
inductive Idle : Op workspaceKey → Reply → Prop
  | create {env value given id} : Idle (.action env (.create value given)) (.id id)
  | feedback {env id text given} : Idle (.action env (.feedback id text given)) (.id id)
  | pause {env id} : Idle (.action env (.pause id)) (.id id)
  | stop {env id} : Idle (.action env (.stop id)) (.id id)
  | resume {env id} : Idle (.action env (.resume id)) (.id id)
  | progress {k env summary} : Idle (.worker k (.progress env summary)) .done
  | consume {k requestId} : Idle (.worker k (.consumeResponse requestId)) (.response none)
  | interactive {env workspace owner} : Idle (.interactive env workspace owner false) .done

/-- The message of a refused reservation. -/
def budgetReached : Err := .budgetLimitError "Cumulative goal inference budget reached"

def Announceable (env : Env workspaceKey) (workspace owner : String) (db : GoalDb) : Prop :=
  ¬ Leased (workspaceKey workspace) db ∧
    ¬ ∃ r ∈ lookup Interactive.key (workspaceKey workspace) db.interactive,
      r.owner ≠ owner ∧ r.busy = true ∧ env.now - seconds 10 < r.heartbeat

/-- **The outcomes of a call.** -/
inductive Does (uuids : Uuids) (w : World) :
    Op workspaceKey → Except Err Reply → GoalDb → Prop
  | failed {op e} (he : ∀ k env n, op = .worker k (.reserve env n) → e ≠ budgetReached) :
    Does uuids w op (.error e) w.db
  | idle {op r} (hi : Idle op r) : Does uuids w op (.ok r) w.db
  | create {env value given id spec} (hspec : goalSpec env.host value = .ok spec)
    (hid : id = orDrawn given (uuids.draw w.drawn)) (hvalid : ValidIdentity env.host id)
    (hnew : w.db.goal id = none) :
    Does uuids w (.action env (.create value given)) (.ok (.id id)) (insertGoal env id spec w.db)
  | feedback {env id text given row} (hrow : w.db.goal id = some row)
    (hopen : ¬ row.state.Terminal)
    (hnew : ¬ ∃ f ∈ w.db.goalFeedback, f.id = orDrawn given (uuids.draw w.drawn)) :
    Does uuids w (.action env (.feedback id text given)) (.ok (.id id))
      (addFeedback env id (orDrawn given (uuids.draw w.drawn)) (strip text) row.state w.db)
  | pause {env id row} (hrow : w.db.goal id = some row) (hopen : ¬ row.state.Terminal) :
    Does uuids w (.action env (.pause id)) (.ok (.id id))
      (halted env .paused "Paused by user" id w.db)
  | stop {env id row} (hrow : w.db.goal id = some row) (hopen : ¬ row.state.Terminal) :
    Does uuids w (.action env (.stop id)) (.ok (.id id))
      (halted env .stopped "Stopped by user" id w.db)
  | resume {env id row} (hrow : w.db.goal id = some row) (hr : Resumable w.db row)
    (hs : row.state ≠ .queued) :
    Does uuids w (.action env (.resume id)) (.ok (.id id)) (requeued env id w.db)
  | extend {env id maxCycles maxRequests maxTokenEstimate row spec}
    (hrow : w.db.goal id = some row) (hlease : row.lease = none) (hopen : ¬ row.state.Terminal)
    (hspec : goalSpec env.host (extended row.spec maxCycles maxRequests maxTokenEstimate) = .ok spec) :
    Does uuids w (.action env (.extend id maxCycles maxRequests maxTokenEstimate)) (.ok (.id id))
      (relimited env id spec w.db)
  | accept {env id row} (hrow : w.db.goal id = some row) (hready : row.state = .readyForReview)
    (hlease : row.lease = none) :
    Does uuids w (.action env (.accept id)) (.ok (.id id)) (completed env id w.db)
  | delete {env id row} (hrow : w.db.goal id = some row) (hlease : row.lease = none)
    (hidle : ¬ row.state.Active) :
    Does uuids w (.action env (.delete id)) (.ok (.id id)) (deleted id w.db)
  | unclaimed {env identity db₁} (hp : Pauses env w.db db₁) :
    Does uuids w (.claim env identity) (.ok (.claimed none)) db₁
  | claimed {env identity db₁ goal} (hp : Pauses env w.db db₁) (hg : Grantable env goal db₁) :
    Does uuids w (.claim env identity)
      (.ok (.claimed (some (handedOut (uuids.draw w.drawn) goal))))
      (granted env (uuids.draw w.drawn) goal db₁)
  | attach {k env sessionId turnId goal} (hk : w.cycles[k]? = some goal)
    (hheld : ∃ g ∈ w.db.goals, goal.Holds g) :
    Does uuids w (.worker k (.attach env sessionId turnId)) (.ok .done)
      (w.db.updGoals goal.Holds fun g =>
        { g with sessionId := some sessionId, turnId := turnId, updated := env.now })
  | refuse {k env estimate goal row} (hk : w.cycles[k]? = some goal)
    (hrow : w.db.goal goal.id = some row) (hlease : row.lease = some goal.lease)
    (hactive : row.state.Active) (hover : OverBudget row estimate) :
    Does uuids w (.worker k (.reserve env estimate)) (.error budgetReached) (refused env row w.db)
  | reserve {k env estimate goal row} (hk : w.cycles[k]? = some goal)
    (hrow : w.db.goal goal.id = some row) (hlease : row.lease = some goal.lease)
    (hactive : row.state.Active) (hroom : ¬ OverBudget row estimate) :
    Does uuids w (.worker k (.reserve env estimate)) (.ok .done) (reserved row.id estimate w.db)
  | progress {k env summary text goal} (hk : w.cycles[k]? = some goal)
    (hheld : ∃ g ∈ w.db.goals, goal.Holds g ∧ g.state.Active) :
    Does uuids w (.worker k (.progress env summary)) (.ok .done)
      (event goal.id .activity { summary := text } env.now
        (w.db.updGoals (fun g => goal.Holds g ∧ g.state.Active)
          fun g => { g with detail := text, updated := env.now }))
  | pending {k env message goal db'} (hk : w.cycles[k]? = some goal)
    (hdb : pending env (uuids.draw w.drawn) goal message w.db = .ok (uuids.draw w.drawn, db')) :
    Does uuids w (.worker k (.pending env message)) (.ok (.requested (uuids.draw w.drawn))) db'
  | respond {env id requestId allow answers row response summary}
    (hrow : answerable id requestId w.db = some row)
    (hresponse : responseTo row allow answers = .ok response) :
    Does uuids w (.respond env id requestId allow answers) (.ok .done)
      (answered env id requestId response summary w.db)
  | consume {k requestId goal row} (hk : w.cycles[k]? = some goal)
    (hrow : deliverable goal requestId w.db = some row) :
    Does uuids w (.worker k (.consumeResponse requestId))
      (.ok (.response (some (row.nativeId, row.response.getD .null))))
      (delivered goal requestId w.db)
  | finish {k env checkpoint ending detail feedbackIds failure goal row}
    (hk : w.cycles[k]? = some goal) (hrow : w.db.goal goal.id = some row)
    (hlease : row.lease = some goal.lease) :
    Does uuids w (.worker k (.finish env checkpoint ending detail feedbackIds failure)) (.ok .done)
      (finished env goal row ⟨checkpoint, ending.state, detail, feedbackIds, failure⟩ w.db)
  | interactive {env workspace owner busy}
    (hbusy : busy = true → Announceable env workspace owner w.db) :
    Does uuids w (.interactive env workspace owner busy) (.ok .done)
      (w.db.setInteractive ⟨workspaceKey workspace, owner, busy, env.now⟩)
  | recover {env} : Does uuids w (.recover env) (.ok .done) (recovered env w.db)

/-! ### Every call has one of these outcomes -/

section Each

theorem does_transaction {β : Type} {op : Op workspaceKey} {f : β → Reply}
    {body : GoalDb → Except Err (β × GoalDb)}
    (hop : ∀ k env n, op ≠ .worker k (.reserve env n))
    (h : ∀ b db', body w.db = .ok (b, db') → Does uuids w op (.ok (f b)) db') :
    Does uuids w op (replying f (transaction body w.db)).1 (replying f (transaction body w.db)).2 := by
  rcases transaction_eq body w.db with ⟨b, db', hb, -, he⟩ | ⟨e, he⟩
  · rw [he]
    exact h b db' hb
  · rw [he]
    exact Does.failed fun k env n hk => absurd hk (hop k env n)

theorem does_action (env : Env workspaceKey) (request : Action) {id : String} {db' : GoalDb}
    (h : action env (uuids.draw w.drawn) request w.db = .ok (id, db')) :
    Does uuids w (.action env request) (.ok (.id id)) db' := by
  cases request with
  | create value given =>
    obtain ⟨spec, hspec, hid, hvalid, ⟨-, -, -, rfl⟩ | ⟨hnew, rfl⟩⟩ := create_ok h
    · exact Does.idle .create
    · exact Does.create hspec hid hvalid hnew
  | feedback id text given =>
    obtain ⟨row, hrow, hopen, rfl, -, ⟨-, rfl⟩ | ⟨hnew, rfl⟩⟩ := feedback_ok h
    · exact Does.idle .feedback
    · exact Does.feedback hrow hopen hnew
  | pause id =>
    obtain ⟨row, hrow, rfl, ⟨-, rfl⟩ | ⟨hopen, rfl⟩⟩ := halt_ok h
    · exact Does.idle .pause
    · exact Does.pause hrow hopen
  | stop id =>
    obtain ⟨row, hrow, rfl, ⟨-, rfl⟩ | ⟨hopen, rfl⟩⟩ := halt_ok h
    · exact Does.idle .stop
    · exact Does.stop hrow hopen
  | resume id =>
    obtain ⟨row, hrow, hr, rfl, ⟨-, rfl⟩ | ⟨hs, rfl⟩⟩ := resume_ok h
    · exact Does.idle .resume
    · exact Does.resume hrow hr hs
  | extend id maxCycles maxRequests maxTokenEstimate =>
    obtain ⟨row, spec, hrow, hlease, hopen, hspec, rfl, rfl⟩ := extend_ok h
    exact Does.extend hrow hlease hopen hspec
  | accept id =>
    obtain ⟨row, hrow, hready, hlease, -, rfl, rfl⟩ := accept_ok h
    exact Does.accept hrow hready hlease
  | delete id =>
    obtain ⟨row, hrow, hlease, hidle, rfl, rfl⟩ := delete_ok h
    exact Does.delete hrow hlease hidle

theorem reserveWrite_error {env : Env workspaceKey} {goal : Snapshot} {estimate : ℤ} {db : GoalDb}
    {e : Err} (h : reserveWrite env goal estimate db = .error e) : e ≠ budgetReached := by
  rintro rfl
  unfold reserveWrite find at h
  split at h
  · next row hrow =>
    change (if row.lease ≠ some goal.lease ∨ ¬ row.state.Active then _ else
      if OverBudget row estimate then _ else _) = _ at h
    split_ifs at h <;> cases h
  · cases h

theorem does_reserve {k : ℕ} {goal : Snapshot} (hk : w.cycles[k]? = some goal)
    (env : Env workspaceKey) (estimate : ℤ) :
    Does uuids w (.worker k (.reserve env estimate))
      (replying (fun _ => Reply.done) (reserve env goal estimate w.db)).1
      (replying (fun _ => Reply.done) (reserve env goal estimate w.db)).2 := by
  unfold reserve andThen
  rcases transaction_eq (reserveWrite env goal estimate) w.db with
    ⟨exhausted, db', hb, hc, he⟩ | ⟨e, he⟩
  · rw [he]
    unfold reserveWrite at hb
    obtain ⟨row, hrow, hb⟩ := bind_ok hb
    have hrow := find_ok hrow
    by_cases hstale : row.lease ≠ some goal.lease ∨ ¬ row.state.Active
    · rw [if_pos hstale] at hb
      cases hb
    rw [if_neg hstale] at hb
    obtain ⟨hlease, hactive⟩ := not_or.mp hstale
    by_cases hover : OverBudget row estimate
    · rw [if_pos hover] at hb
      cases hb
      exact Does.refuse hk hrow (not_not.mp hlease) (not_not.mp hactive) hover
    · rw [if_neg hover] at hb
      cases hb
      exact Does.reserve hk hrow (not_not.mp hlease) (not_not.mp hactive) hover
  · have hraised : (transaction (reserveWrite env goal estimate) w.db).1 = .error e := by rw [he]
    rw [he]
    refine Does.failed fun _ _ _ _ => ?_
    rcases commit_error hraised with hb | rfl
    · exact reserveWrite_error hb
    · exact fun h => by cases h

theorem does_worker {k : ℕ} {goal : Snapshot} (hk : w.cycles[k]? = some goal)
    (call : WorkerCall workspaceKey) :
    Does uuids w (.worker k call) (workerCall (uuids.draw w.drawn) goal w.db call).1
      (workerCall (uuids.draw w.drawn) goal w.db call).2 := by
  cases call with
  | attach env sessionId turnId =>
    refine does_transaction (fun _ _ _ h => by cases h) fun b db' hb => ?_
    unfold attach at hb
    split at hb
    · next hheld =>
      cases hb
      exact Does.attach hk hheld
    · cases hb
  | reserve env estimate => exact does_reserve hk env estimate
  | progress env summary =>
    refine does_transaction (fun _ _ _ h => by cases h) fun b db' hb => ?_
    unfold progress at hb
    dsimp only at hb
    split at hb
    · cases hb
      exact Does.idle .progress
    · split at hb
      · next hheld =>
        cases hb
        exact Does.progress hk hheld
      · cases hb
        exact Does.idle .progress
  | pending env message =>
    refine does_transaction (fun _ _ _ h => by cases h) fun b db' hb => ?_
    have hfresh : b = uuids.draw w.drawn := by
      cases hb
      rfl
    subst hfresh
    exact Does.pending hk hb
  | consumeResponse requestId =>
    refine does_transaction (fun _ _ _ h => by cases h) fun b db' hb => ?_
    unfold consumeResponse at hb
    split at hb
    · cases hb
      exact Does.idle .consume
    · next row hrow =>
      cases hb
      exact Does.consume hk hrow
  | finish env checkpoint ending detail feedbackIds failure =>
    refine does_transaction (fun _ _ _ h => by cases h) fun b db' hb => ?_
    unfold finish at hb
    obtain ⟨row, hrow, hb⟩ := bind_ok hb
    by_cases hstale : row.lease ≠ some goal.lease
    · rw [if_pos hstale] at hb
      cases hb
    · rw [if_neg hstale] at hb
      cases hb
      exact Does.finish hk (find_ok hrow) (not_not.mp hstale)

/-- **Every call has one of the outcomes.** -/
theorem does_result (hk : Keyed Goal.id w.db.goals) (op : Op workspaceKey) :
    Does uuids w op (result uuids w op).1 (result uuids w op).2 := by
  cases op with
  | action env request =>
    exact does_transaction (fun _ _ _ h => by cases h) fun id db' hb => does_action env request hb
  | claim env identity =>
    refine does_transaction (fun _ _ _ h => by cases h) fun r db' hb => ?_
    obtain ⟨db₁, hp, ⟨rfl, rfl⟩ | ⟨goal, hg, rfl, rfl⟩⟩ := claim_spec hk hb
    · exact Does.unclaimed hp
    · exact Does.claimed hp hg
  | worker k call =>
    simp only [result]
    cases hgoal : w.cycles[k]? with
    | none => exact Does.failed fun _ _ _ _ h => by cases h
    | some goal => exact does_worker hgoal call
  | respond env id requestId allow answers =>
    refine does_transaction (fun _ _ _ h => by cases h) fun b db' hb => ?_
    unfold respond at hb
    split at hb
    · cases hb
    · next row hrow =>
      obtain ⟨response, hresponse, hb⟩ := bind_ok hb
      cases hb
      exact Does.respond hrow hresponse
  | interactive env workspace owner busy =>
    refine does_transaction (fun _ _ _ h => by cases h) fun b db' hb => ?_
    unfold Cycles.interactive at hb
    dsimp only at hb
    cases busy with
    | true =>
      rw [if_pos rfl] at hb
      obtain ⟨_, hfree, hb⟩ := bind_ok hb
      obtain ⟨_, hquiet, hb⟩ := bind_ok hb
      cases hb
      exact Does.interactive fun _ => ⟨require_ok hfree, require_ok hquiet⟩
    | false =>
      rw [if_neg Bool.false_ne_true] at hb
      split at hb
      · cases hb
        exact Does.interactive fun h => by cases h
      · cases hb
        exact Does.idle .interactive
  | recover env =>
    refine does_transaction (fun _ _ _ h => by cases h) fun b db' hb => ?_
    cases hb
    exact Does.recover

end Each

theorem does_of_reply (hk : Keyed Goal.id w.db.goals) {r : Except Err Reply}
    (hr : reply uuids w op = r) : Does uuids w op r (next uuids w op).db := by
  rw [← hr]
  exact does_result hk op

theorem ok_of_replying {β : Type} {f : β → Reply} {x : Except Err β × GoalDb} {answer : Reply}
    (h : (replying f x).1 = .ok answer) : ∃ b, x.1 = .ok b := by
  unfold replying at h
  cases hx : x.1 with
  | error e =>
    rw [hx] at h
    cases h
  | ok b => exact ⟨b, rfl⟩

/-! ### The keys of the schema -/

theorem keeps_constraints {β : Type} (body : GoalDb → Except Err (β × GoalDb)) :
    Keeps GoalDb.Constraints (transaction body) := keeps_commit fun _ _ _ _ _ hv => hv

theorem constraints_transaction {β : Type} {f : β → Reply} {body : GoalDb → Except Err (β × GoalDb)}
    (h : db.Constraints) : (replying f (transaction body db)).2.Constraints :=
  keeps_constraints body db h

theorem constraints_reserve {env : Env workspaceKey} {goal : Snapshot} {estimate : ℤ}
    (h : db.Constraints) : (reserve env goal estimate db).2.Constraints :=
  keeps_andThen (keeps_constraints _) (fun _ => keeps_query _) db h

theorem constraints_result (h : w.db.Constraints) : (result uuids w op).2.Constraints := by
  cases op with
  | action env request => exact constraints_transaction h
  | claim env identity => exact constraints_transaction h
  | worker k call =>
    simp only [result]
    cases w.cycles[k]? with
    | none => exact h
    | some goal =>
      cases call with
      | reserve env estimate => exact constraints_reserve h
      | _ => exact constraints_transaction h
  | respond env id requestId allow answers => exact constraints_transaction h
  | interactive env workspace owner busy => exact constraints_transaction h
  | recover env => exact constraints_transaction h

theorem empty_constraints : ({} : GoalDb).Constraints := by decide

/-! ### Rows -/

theorem eq_of_row (hk : Keyed Goal.id db.goals) {id : String} {row g : Goal}
    (hrow : db.goal id = some row) (hg : g ∈ db.goals) (hid : g.id = id) : g = row := by
  obtain ⟨hm, rfl⟩ := goal_mem hrow
  exact hk.eq_of_key hg hm hid

theorem row_unique {id id' : String} {row g : Goal} (hrow : db.goal id = some row)
    (hg : db.goal id' = some g) (hid : g.id = id) : g = row := by
  have he : id' = id := (goal_mem hg).2.symm.trans hid
  rw [he, hrow] at hg
  exact (Option.some.inj hg).symm

theorem keyed_pauses {env : Env workspaceKey} (hk : Keyed Goal.id db.goals) (hp : Pauses env db db') :
    Keyed Goal.id db'.goals := by
  induction hp with
  | refl => exact hk
  | step _ _ _ _ _ ih =>
    refine (keyed_updateWhere fun g _ => ?_).mpr ih
    rfl

theorem mem_granted {env : Env workspaceKey} {lease : Uuid} {goal g : Goal}
    (hk : Keyed Goal.id db.goals) (hrow : db.goal goal.id = some goal)
    (hg : g ∈ (granted env lease goal db).goals) :
    g = inCycle env lease (startingCycle goal) goal ∨ (g ∈ db.goals ∧ g.id ≠ goal.id) := by
  obtain ⟨g₀, hg₀, rfl⟩ := mem_updateWhere.mp hg
  by_cases hid : g₀.id = goal.id
  · rw [if_pos hid, eq_of_row hk hrow hg₀ hid]
    exact Or.inl rfl
  · rw [if_neg hid]
    exact Or.inr ⟨hg₀, hid⟩

/-! ### Tables after a call -/

theorem recoveryEvents_eq (env : Env workspaceKey) (db : GoalDb) :
    ∃ events n, recoveryEvents env db = { db with goalEvents := events, eventSeq := n } := by
  have haux : ∀ (rows : List Goal) (db₁ : GoalDb),
      (∃ events n, db₁ = { db with goalEvents := events, eventSeq := n }) →
      ∃ events n, rows.foldl (fun db g => event g.id .recovery
        { summary := "Supervisor interrupted; saved session retained. Resume explicitly." } env.now
        db) db₁ = { db with goalEvents := events, eventSeq := n } := by
    intro rows
    induction rows with
    | nil => exact fun db₁ h => h
    | cons g rows ih =>
      rintro db₁ ⟨events, n, rfl⟩
      exact ih _ ⟨_, _, rfl⟩
  exact haux _ db ⟨db.goalEvents, db.eventSeq, rfl⟩

theorem recovered_goals (env : Env workspaceKey) (db : GoalDb) :
    (recovered env db).goals = updateWhere (fun g => g.lease ≠ none) abandoned db.goals := by
  obtain ⟨events, n, he⟩ := recoveryEvents_eq env db
  unfold recovered
  rw [he]
  rfl

theorem relimited_goals (env : Env workspaceKey) (id : String) (spec : GoalSpec) (db : GoalDb) :
    (relimited env id spec db).goals = updateWhere (fun g => g.id = id)
      (fun g => { g with spec := spec, updated := env.now }) db.goals := by
  unfold relimited
  dsimp only
  split <;> rfl

/-- The row of a goal that has got feedback. -/
def fed (env : Env workspaceKey) (state : GoalState) (g : Goal) : Goal :=
  if state = .readyForReview then
    { g with stalled := 0, state := .queued, due := env.now, updated := env.now }
  else { g with stalled := 0, updated := env.now }

theorem addFeedback_goals (env : Env workspaceKey) (id feedbackId text : String) (state : GoalState)
    (db : GoalDb) : (addFeedback env id feedbackId text state db).goals =
      updateWhere (fun g => g.id = id) (fed env state) db.goals := by
  unfold addFeedback fed
  dsimp only
  split
  · exact updateWhere_updateWhere fun _ h => h
  · rfl

theorem fed_eq (env : Env workspaceKey) (state : GoalState) (g : Goal) :
    ∃ due updated s, fed env state g = { g with stalled := 0, due := due, updated := updated, state := s } ∧
      (state ≠ .readyForReview → s = g.state) ∧ (state = .readyForReview → s = .queued) := by
  unfold fed
  split
  · next h => exact ⟨_, _, _, rfl, fun hne => absurd h hne, fun _ => rfl⟩
  · next h => exact ⟨_, _, _, rfl, fun _ => rfl, fun he => absurd he h⟩

theorem delivered_goals (goal : Snapshot) (requestId : Uuid) (db : GoalDb) :
    (delivered goal requestId db).goals = db.goals ∨
      (delivered goal requestId db).goals = updateWhere
        (fun g => goal.Holds g ∧ g.state = .awaitingApproval)
        (fun g => { g with state := .running, detail := "" }) db.goals := by
  unfold delivered
  dsimp only
  split
  · exact Or.inl rfl
  · exact Or.inr rfl

theorem goal_of_pauses {env : Env workspaceKey} (hp : Pauses env db db') {id : String} {g : Goal}
    (h : db'.goal id = some g) (hs : g.state = .queued) : db.goal id = some g := by
  induction hp with
  | refl => exact h
  | @step db₁ spentGoal _ hrow _ _ _ ih =>
    by_cases hid : id = spentGoal.id
    · have hpaused : (spent env spentGoal.id db₁).goal spentGoal.id = (db₁.goal spentGoal.id).map
          fun g => if g.id = spentGoal.id then
            { g with state := .paused, detail := "Cumulative goal budget reached" } else g := by
        refine goal_updGoals (fun g => ?_) spentGoal.id
        rfl
      have hg : (spent env spentGoal.id db₁).goal spentGoal.id = some g := hid ▸ h
      rw [hpaused, hrow] at hg
      simp only [Option.map_some, if_true, Option.some.injEq] at hg
      rw [← hg] at hs
      cases hs
    · rw [goal_spent hid] at h
      exact ih h

theorem goal_update {p : Goal → Prop} [DecidablePred p] {f : Goal → Goal}
    (he : db'.goals = updateWhere p f db.goals) (hid : ∀ g, p g → (f g).id = g.id) (id : String) :
    db'.goal id = (db.goal id).map fun g => if p g then f g else g := by
  unfold GoalDb.goal
  rw [he]
  exact lookup_updateWhere hid

theorem goal_insertGoal {env : Env workspaceKey} {id id' : String} {spec : GoalSpec} :
    (insertGoal env id spec db).goal id' =
      (db.goal id').or (if id = id' then some (newGoal env id spec) else none) := by
  show lookup Goal.id id' (db.goals ++ [newGoal env id spec]) = _
  rw [lookup_append]
  congr 1
  by_cases h : id = id'
  · simp [lookup, newGoal, h]
  · simp [lookup, newGoal, h]

theorem goal_deleted {id id' : String} (h : id' ≠ id) : (deleted id db).goal id' = db.goal id' :=
  lookup_deleteWhere fun _ hk hd => h (hk.symm.trans hd)

theorem blocked_setBlocked {id id' : String} {limits : Option Limits} :
    (db.setBlocked id limits).blocked id' = if id' = id then limits else db.blocked id' := by
  refine (congrArg (Option.bind · BudgetBlocked.limits) (lookup_upsert fun b h => ?_)).trans ?_
  · exact h
  by_cases h : id' = id
  · rw [if_pos h, if_pos h]
    cases lookup BudgetBlocked.goalId id' db.budgetBlocked <;> rfl
  · rw [if_neg h, if_neg h]
    rfl

theorem addFeedback_blocked (env : Env workspaceKey) (id feedbackId text : String)
    (state : GoalState) (db : GoalDb) :
    (addFeedback env id feedbackId text state db).blocked = db.blocked := by
  unfold addFeedback
  dsimp only
  split <;> rfl

theorem recovered_blocked (env : Env workspaceKey) (db : GoalDb) :
    (recovered env db).blocked = db.blocked := by
  obtain ⟨events, n, he⟩ := recoveryEvents_eq env db
  unfold recovered
  rw [he]
  rfl

theorem delivered_blocked (goal : Snapshot) (requestId : Uuid) (db : GoalDb) :
    (delivered goal requestId db).blocked = db.blocked := by
  unfold delivered
  dsimp only
  split <;> rfl

theorem relimited_blocked (env : Env workspaceKey) (id id' : String) (spec : GoalSpec) (db : GoalDb) :
    (relimited env id spec db).blocked id' =
      if id' = id ∧ ∃ limits ∈ db.blocked id, Raises spec limits then none else db.blocked id' := by
  unfold relimited
  dsimp only
  by_cases hr : ∃ limits ∈ db.blocked id, Raises spec limits
  · rw [if_pos hr, event_blocked, blocked_setBlocked]
    by_cases hid : id' = id
    · rw [if_pos hid, if_pos ⟨hid, hr⟩]
    · rw [if_neg hid, if_neg fun h => hid h.1]
      rfl
  · rw [if_neg hr, if_neg fun h => hr h.2]
    rfl

theorem outcome_state (row : Goal) (report : CycleReport) :
    (¬ (row.state = .paused ∨ row.state = .stopped) ∧ (outcome row report).2.1 = .blocked) ∨
      (outcome row report).2.1 =
        if row.state = .paused ∨ row.state = .stopped then row.state else report.state := by
  have hqueued : row.state = .paused ∨ row.state = .stopped → row.state ≠ .queued := by
    rintro (h | h) <;> rw [h] <;> decide
  unfold outcome
  dsimp only
  cases report.checkpoint with
  | none => exact Or.inr rfl
  | some checkpoint =>
    dsimp only
    by_cases hhalted : row.state = .paused ∨ row.state = .stopped
    · simp only [if_pos hhalted]
      rw [if_neg fun hc => hqueued hhalted hc.1]
      exact Or.inr rfl
    · simp only [if_neg hhalted]
      split_ifs
      all_goals first | exact Or.inl ⟨hhalted, rfl⟩ | exact Or.inr rfl

theorem closing_of_halted {row : Goal} {report : CycleReport} {id : String}
    (h : row.state = .paused ∨ row.state = .stopped) :
    (closing id (outcome row report).2.1 (outcome row report).2.2.2 db).1 = row.state := by
  have hstate : (outcome row report).2.1 = row.state := by
    rcases outcome_state row report with ⟨hne, -⟩ | he
    · exact absurd h hne
    · rw [he, if_pos h]
  unfold closing
  rw [hstate, if_neg]
  rintro ⟨hr, -⟩
  rcases h with h | h <;> rw [h] at hr <;> cases hr

end Smara.Goals.Effects
