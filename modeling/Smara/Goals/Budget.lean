import Mathlib.Algebra.Group.Prod
import Mathlib.Algebra.Ring.Int.Defs
import Smara.Goals.Effects

/-! # The cumulative budget of a goal

The requests of a goal and the estimates of their tokens add up over its whole life, under limits that
the user may change. A refused reservation is remembered under `budget_blocked:{id}`.

* `within_budget`: in every run the counters are those of the reservations that succeeded, each within
  the limits of its moment, and after a refusal nothing runs until the limits have been raised. -/

namespace Smara.Goals.Budget

open Lib.Machine Lib.Table
open TaskStore.Schema (Uuid Time seconds)
open Goals.Schema Goals.Schema.GoalDb Goals.Spec Goals.Actions
open Goals.Cycles Goals.Runs Goals.Effects

variable {workspaceKey : String → String} {db db' : GoalDb} {uuids : Uuids} {w : World}
  {op : Op workspaceKey} {r : Except Err Reply} {id : String} {limits : Limits}

def reservedBy (id : String) (w : World) : Op workspaceKey → Except Err Reply → Option ℤ
  | .worker k (.reserve _ estimate), .ok _ =>
    if (w.cycles[k]?).map Snapshot.id = some id then some estimate else none
  | _, _ => none

def reservation (uuids : Uuids) (id : String) (w : World) (op : Op workspaceKey) : Option ℤ :=
  reservedBy id w op (reply uuids w op)

def reservations (uuids : Uuids) (id : String) (ops : List (Op workspaceKey)) : List ℤ :=
  outputs (next uuids) (reservation uuids id) {} ops

def counters (id : String) (db : GoalDb) : ℕ × ℤ :=
  ((db.goal id).map fun g => (g.requests, g.tokenEstimate)).getD (0, 0)

def Deletes (id : String) (op : Op workspaceKey) : Prop := ∃ env, op = .action env (.delete id)

/-! ### The counters -/

theorem reservedBy_error {e : Err} : reservedBy id w op (.error e) = none := by
  cases op with
  | worker k call => cases call <;> rfl
  | _ => rfl

theorem reservedBy_idle {a : Reply} (h : Idle op a) : reservedBy id w op (.ok a) = none := by
  cases h <;> rfl

theorem counters_update {p : Goal → Prop} [DecidablePred p] {f : Goal → Goal}
    (he : db'.goals = updateWhere p f db.goals)
    (hf : ∀ g, (f g).id = g.id ∧ (f g).requests = g.requests ∧ (f g).tokenEstimate = g.tokenEstimate) :
    counters id db' = counters id db := by
  unfold counters GoalDb.goal
  rw [he, lookup_updateWhere_map (fun g _ => (hf g).1) (fun g _ => by rw [(hf g).2.1, (hf g).2.2])]

theorem counters_of_goals_eq (he : db'.goals = db.goals) : counters id db' = counters id db := by
  unfold counters GoalDb.goal
  rw [he]

theorem counters_pauses {env : Env workspaceKey} (hp : Pauses env db db') :
    counters id db' = counters id db := by
  induction hp with
  | refl => rfl
  | step _ _ _ _ _ ih =>
    refine (counters_update rfl fun g => ?_).trans ih
    exact ⟨rfl, rfl, rfl⟩

/-- The counters after a reservation. -/
def charged (c : ℕ × ℤ) : Option ℤ → ℕ × ℤ
  | none => c
  | some estimate => (c.1 + 1, c.2 + estimate)

/-- **Every call adds to the counters what it reserves.** -/
theorem counters_does (hd : Does uuids w op r db') (hkeep : ¬ Deletes id op) :
    counters id db' = charged (counters id w.db) (reservedBy id w op r) := by
  cases hd with
  | failed => rw [reservedBy_error]; rfl
  | idle hi => rw [reservedBy_idle hi]; rfl
  | @create env value given id' spec hspec hid hvalid hnew =>
    show counters id _ = counters id w.db
    unfold counters
    rw [goal_insertGoal]
    by_cases h : id' = id
    · rw [if_pos h, ← h, hnew]
      rfl
    · rw [if_neg h, Option.or_none]
  | @feedback env id' text given row hrow hopen hnew =>
    refine counters_update (addFeedback_goals ..) fun g => ?_
    obtain ⟨due, updated, state, he, -⟩ := fed_eq env row.state g
    rw [he]
    exact ⟨rfl, rfl, rfl⟩
  | pause hrow hopen => exact counters_update rfl fun g => by exact ⟨rfl, rfl, rfl⟩
  | stop hrow hopen => exact counters_update rfl fun g => by exact ⟨rfl, rfl, rfl⟩
  | resume hrow hr hs => exact counters_update rfl fun g => by exact ⟨rfl, rfl, rfl⟩
  | extend hrow hlease hopen hspec => exact counters_update (relimited_goals ..) fun g => ⟨rfl, rfl, rfl⟩
  | accept hrow hready hlease => exact counters_update rfl fun g => by exact ⟨rfl, rfl, rfl⟩
  | @delete env id' row hrow hlease hidle =>
    have hne : id ≠ id' := fun h => hkeep ⟨env, by rw [h]⟩
    show counters id _ = counters id w.db
    unfold counters
    rw [goal_deleted hne]
  | unclaimed hp => exact counters_pauses hp
  | claimed hp hg =>
    refine Eq.trans ?_ (counters_pauses hp)
    exact counters_update rfl fun g => by exact ⟨rfl, rfl, rfl⟩
  | attach hk hheld => exact counters_update rfl fun g => by exact ⟨rfl, rfl, rfl⟩
  | refuse hk hrow hlease hactive hover => exact counters_update rfl fun g => by exact ⟨rfl, rfl, rfl⟩
  | @reserve k env estimate goal row hk hrow hlease hactive hroom =>
    have hrowid : row.id = goal.id := (goal_mem hrow).2
    show _ = charged _ (if (w.cycles[k]?).map Snapshot.id = some id then some estimate else none)
    rw [hk, Option.map_some]
    unfold counters
    have hg : (reserved row.id estimate w.db).goal id = (w.db.goal id).map fun g =>
        if g.id = row.id then { g with
          requests := g.requests + 1, tokenEstimate := g.tokenEstimate + estimate } else g := by
      refine goal_update rfl (fun g _ => ?_) id
      rfl
    rw [hg]
    by_cases h : goal.id = id
    · rw [if_pos (congrArg some h), ← h, hrow]
      simp [charged, hrowid]
    · rw [if_neg fun he => h (Option.some.inj he)]
      cases hg : w.db.goal id with
      | none => rfl
      | some g =>
        have hne : g.id ≠ row.id := fun he => h (hrowid ▸ he ▸ (goal_mem hg).2)
        simp [charged, hne]
  | progress hk hheld => exact counters_update rfl fun g => by exact ⟨rfl, rfl, rfl⟩
  | pending hk hdb =>
    cases hdb
    exact counters_update rfl fun g => by exact ⟨rfl, rfl, rfl⟩
  | respond hrow hresponse => exact counters_of_goals_eq rfl
  | consume hk hrow =>
    rcases delivered_goals .. with he | he
    · exact counters_of_goals_eq he
    · exact counters_update he fun g => ⟨rfl, rfl, rfl⟩
  | finish hk hrow hlease => exact counters_update rfl fun g => by exact ⟨rfl, rfl, rfl⟩
  | interactive hbusy => exact counters_of_goals_eq rfl
  | recover => exact counters_update (recovered_goals ..) fun g => ⟨rfl, rfl, rfl⟩

theorem charged_eq (c : ℕ × ℤ) (o : Option ℤ) :
    charged c o = c + (o.toList.map fun estimate => ((1 : ℕ), estimate)).sum := by
  cases o with
  | none => exact (add_zero c).symm
  | some estimate => simp [charged, Prod.ext_iff]

theorem sum_charges (es : List ℤ) :
    (es.map fun estimate => ((1 : ℕ), estimate)).sum = (es.length, es.sum) := by
  induction es with
  | nil => rfl
  | cons e es ih =>
    rw [List.map_cons, List.sum_cons, ih, List.length_cons, List.sum_cons, Prod.mk_add_mk, add_comm 1]

theorem counters_run {ops : List (Op workspaceKey)} (hkeep : ∀ op ∈ ops, ¬ Deletes id op) :
    counters id (run (next uuids) {} ops).db =
      ((reservations uuids id ops).length, (reservations uuids id ops).sum) := by
  have hstep : ∀ (w : World) (op : Op workspaceKey), w.db.Constraints → ¬ Deletes id op →
      counters id (next uuids w op).db = counters id w.db +
        ((reservation uuids id w op).toList.map fun estimate => ((1 : ℕ), estimate)).sum := by
    intro w op h hd
    rw [← charged_eq]
    exact counters_does (does_result h.goals op) hd
  have hrule := run_eq_add_outputs (I := fun w : World => w.db.Constraints)
    (φ := fun w : World => counters id w.db) (fun _ _ h _ => constraints_result h) hstep
    (s := {}) empty_constraints (along_of_forall hkeep)
  rw [show counters id (run (next uuids) {} ops).db = _ from hrule]
  exact (zero_add _).trans (sum_charges _)

/-! ### Reservations and claims -/

theorem room_of_reservedBy {estimate : ℤ} (hd : Does uuids w op r db')
    (h : reservedBy id w op r = some estimate) :
    ∃ row ∈ w.db.goal id, row.state.Active ∧ ¬ OverBudget row estimate := by
  cases hd with
  | failed => rw [reservedBy_error] at h; cases h
  | idle hi => rw [reservedBy_idle hi] at h; cases h
  | @reserve k env estimate' goal row hk hrow hlease hactive hroom =>
    change (if (w.cycles[k]?).map Snapshot.id = some id then some estimate' else none) = _ at h
    rw [hk, Option.map_some] at h
    split at h
    · next hid =>
      cases h
      cases hid
      exact ⟨row, hrow, hactive, hroom⟩
    · cases h
  | _ => cases h

theorem grantable_of_claimed {goal : Goal} (hd : Does uuids w op r db')
    (h : r = .ok (.claimed (some goal))) :
    ∃ row ∈ w.db.goal goal.id, row.state = .queued ∧ row.lease = none ∧ ¬ Exhausted row := by
  cases hd with
  | failed => cases h
  | idle hi => cases hi <;> cases h
  | @claimed env identity db₁ row hp hg =>
    cases h
    exact ⟨row, goal_of_pauses hp hg.row hg.state, hg.state, hg.lease, hg.budget⟩
  | _ => cases h

/-! ### Refusals -/

/-- The call is a reservation of the goal that is refused for its budget, under the limits. -/
def Refuses (uuids : Uuids) (id : String) (limits : Limits) (w : World) (op : Op workspaceKey) :
    Prop :=
  ∃ k env estimate goal row, op = .worker k (.reserve env estimate) ∧ w.cycles[k]? = some goal ∧
    goal.id = id ∧ reply uuids w op = .error budgetReached ∧ w.db.goal id = some row ∧
    limits = ⟨row.spec.maxRequests, row.spec.maxTokenEstimate⟩

/-- The call extends the limits of the goal above the recorded ones. -/
def Raised (uuids : Uuids) (id : String) (limits : Limits) (w : World) (op : Op workspaceKey) : Prop :=
  (∃ env maxCycles maxRequests maxTokenEstimate a,
    op = .action env (.extend id maxCycles maxRequests maxTokenEstimate) ∧ reply uuids w op = .ok a) ∧
  ∃ row ∈ (next uuids w op).db.goal id, Raises row.spec limits

def Works (uuids : Uuids) (id : String) (w : World) (op : Op workspaceKey) : Prop :=
  (∃ estimate, reservation uuids id w op = some estimate) ∨
    ∃ goal, reply uuids w op = .ok (.claimed (some goal)) ∧ goal.id = id

/-- The goal rests: the refusal is remembered, and the goal is paused or stopped. -/
structure Rests (id : String) (limits : Limits) (db : GoalDb) : Prop where
  blocked : db.blocked id = some limits
  row : ∃ row, db.goal id = some row ∧ (row.state = .paused ∨ row.state = .stopped)

theorem rests_update {p : Goal → Prop} [DecidablePred p] {f : Goal → Goal} (h : Rests id limits db)
    (hb : db'.blocked id = db.blocked id) (he : db'.goals = updateWhere p f db.goals)
    (hid : ∀ g, (f g).id = g.id)
    (hf : ∀ g, db.goal id = some g → p g → g.state = .paused ∨ g.state = .stopped →
      (f g).state = .paused ∨ (f g).state = .stopped) : Rests id limits db' := by
  obtain ⟨row, hrow, hs⟩ := h.row
  refine ⟨hb.trans h.blocked, ?_⟩
  rw [goal_update he (fun g _ => hid g), hrow, Option.map_some]
  refine ⟨_, rfl, ?_⟩
  split_ifs with hp
  · exact hf row hrow hp hs
  · exact hs

theorem rests_pauses {env : Env workspaceKey} (h : Rests id limits db) (hp : Pauses env db db') :
    Rests id limits db' := by
  induction hp with
  | refl => exact h
  | step _ _ _ _ _ ih =>
    refine rests_update ih rfl rfl (fun g => ?_) fun g _ _ _ => Or.inl rfl
    rfl

theorem Rests.state (h : Rests id limits db) {row : Goal} (hrow : db.goal id = some row) :
    row.state = .paused ∨ row.state = .stopped := by
  obtain ⟨row', hrow', hs⟩ := h.row
  rw [hrow] at hrow'
  cases hrow'
  exact hs

theorem rests_does (h : Rests id limits w.db) (hd : Does uuids w op r db') (hkeep : ¬ Deletes id op)
    (hraise : ¬ ((∃ env maxCycles maxRequests maxTokenEstimate a,
      op = .action env (.extend id maxCycles maxRequests maxTokenEstimate) ∧ r = .ok a) ∧
      ∃ row ∈ db'.goal id, Raises row.spec limits)) : Rests id limits db' := by
  cases hd with
  | failed => exact h
  | idle hi => exact h
  | @create env value given id' spec hspec hid hvalid hnew =>
    obtain ⟨row, hrow, hs⟩ := h.row
    refine ⟨h.blocked, row, ?_, hs⟩
    rw [goal_insertGoal, hrow, Option.some_or]
  | @feedback env id' text given row hrow hopen hnew =>
    refine rests_update h (congrFun (addFeedback_blocked ..) id) (addFeedback_goals ..) (fun g => ?_)
      fun g hg hp hs => ?_
    · obtain ⟨due, updated, state, he, -⟩ := fed_eq env row.state g
      rw [he]
    · obtain ⟨due, updated, state, he, hsame, -⟩ := fed_eq env row.state g
      have hready : row.state ≠ .readyForReview := by
        rw [← row_unique hrow hg hp]
        rcases hs with hs | hs <;> rw [hs] <;> decide
      rw [he]
      show state = .paused ∨ state = .stopped
      rw [hsame hready]
      exact hs
  | pause hrow hopen =>
    refine rests_update h rfl rfl (fun g => ?_) fun g _ _ _ => Or.inl rfl
    rfl
  | stop hrow hopen =>
    refine rests_update h rfl rfl (fun g => ?_) fun g _ _ _ => Or.inr rfl
    rfl
  | resume hrow hr hs =>
    refine rests_update h rfl rfl (fun g => ?_) fun g hg hp _ => ?_
    · rfl
    · have hb := hr.blocked
      rw [← row_unique hrow hg hp, (goal_mem hg).2, h.blocked] at hb
      cases hb
  | @extend env id' maxCycles maxRequests maxTokenEstimate row spec hrow hlease hopen hspec =>
    refine rests_update h ?_ (relimited_goals ..) (fun g => rfl) fun g _ _ hs => hs
    rw [relimited_blocked]
    refine if_neg fun ⟨hid, hr⟩ => hraise ⟨⟨env, maxCycles, maxRequests, maxTokenEstimate, _, ?_, rfl⟩, ?_⟩
    · rw [hid]
    · obtain ⟨l, hl, hr⟩ := hr
      rw [← hid, Option.mem_def, h.blocked] at hl
      cases hl
      rw [goal_update (relimited_goals ..) (fun _ _ => rfl), hid, hrow]
      refine ⟨_, rfl, ?_⟩
      dsimp only
      rw [if_pos (goal_mem hrow).2]
      exact hr
  | accept hrow hready hlease =>
    refine rests_update h rfl rfl (fun g => ?_) fun g hg hp hs => ?_
    · rfl
    · rw [row_unique hrow hg hp, hready] at hs
      rcases hs with hs | hs <;> cases hs
  | @delete env id' row hrow hlease hidle =>
    have hne : id ≠ id' := fun he => hkeep ⟨env, by rw [he]⟩
    obtain ⟨row, hrow, hs⟩ := h.row
    exact ⟨h.blocked, row, (goal_deleted hne).trans hrow, hs⟩
  | unclaimed hp => exact rests_pauses h hp
  | claimed hp hg =>
    refine rests_update (rests_pauses h hp) rfl rfl (fun g => ?_) fun g hg' hid hs => ?_
    · rfl
    · rw [row_unique hg.row hg' hid, hg.state] at hs
      rcases hs with hs | hs <;> cases hs
  | attach hk hheld =>
    refine rests_update h rfl rfl (fun g => ?_) fun g _ _ hs => ?_
    · rfl
    · exact hs
  | @refuse k env estimate goal row hk hrow hlease hactive hover =>
    have hne : id ≠ row.id := by
      intro he
      have hs : row.state = .paused ∨ row.state = .stopped := by
        refine h.state ?_
        rw [he, (goal_mem hrow).2]
        exact hrow
      rcases hactive with ha | ha <;> rw [ha] at hs <;> rcases hs with hs | hs <;> cases hs
    refine rests_update h (blocked_setBlocked.trans (if_neg hne)) rfl (fun g => ?_)
      fun g _ _ _ => Or.inl rfl
    rfl
  | reserve hk hrow hlease hactive hroom =>
    refine rests_update h rfl rfl (fun g => ?_) fun g _ _ hs => ?_
    · rfl
    · exact hs
  | progress hk hheld =>
    refine rests_update h rfl rfl (fun g => ?_) fun g _ _ hs => ?_
    · rfl
    · exact hs
  | pending hk hdb =>
    cases hdb
    refine rests_update h rfl rfl (fun g => ?_) fun g _ hp hs => ?_
    · rfl
    · rw [hp.2] at hs
      rcases hs with hs | hs <;> cases hs
  | respond hrow hresponse => exact ⟨h.blocked, h.row⟩
  | consume hk hrow =>
    rcases delivered_goals .. with he | he
    · obtain ⟨row, hrow, hs⟩ := h.row
      refine ⟨(congrFun (delivered_blocked ..) id).trans h.blocked, row, ?_, hs⟩
      unfold GoalDb.goal at hrow ⊢
      rw [he, hrow]
    · refine rests_update h (congrFun (delivered_blocked ..) id) he (fun g => rfl) fun g _ hp hs => ?_
      rw [hp.2] at hs
      rcases hs with hs | hs <;> cases hs
  | finish hk hrow hlease =>
    refine rests_update h rfl rfl (fun g => ?_) fun g hg hp hs => ?_
    · rfl
    · rw [row_unique hrow hg hp] at hs
      show (closing _ _ _ _).1 = _ ∨ (closing _ _ _ _).1 = _
      rw [closing_of_halted hs]
      exact hs
  | interactive hbusy => exact ⟨h.blocked, h.row⟩
  | recover =>
    refine rests_update h (congrFun (recovered_blocked ..) id) (recovered_goals ..) (fun g => rfl)
      fun g _ _ hs => ?_
    show (if g.state = .stopped then GoalState.stopped else .paused) = _ ∨
      (if g.state = .stopped then GoalState.stopped else .paused) = _
    split_ifs
    · exact Or.inr rfl
    · exact Or.inl rfl

theorem not_works_of_rests (hc : w.db.Constraints) (h : Rests id limits w.db) :
    ¬ Works uuids id w op := by
  have hd : Does uuids w op _ _ := does_result hc.goals op
  rintro (⟨estimate, he⟩ | ⟨goal, hr, rfl⟩)
  · obtain ⟨row, hrow, hactive, -⟩ := room_of_reservedBy hd he
    have hs := h.state hrow
    rcases hactive with ha | ha <;> rw [ha] at hs <;> rcases hs with hs | hs <;> cases hs
  · obtain ⟨row, hrow, hqueued, -⟩ := grantable_of_claimed hd hr
    have hs := h.state hrow
    rw [hqueued] at hs
    rcases hs with hs | hs <;> cases hs

/-- **A refusal leaves the counters alone, and the goal rests.** -/
theorem rests_of_refuses (hc : w.db.Constraints) (h : Refuses uuids id limits w op) :
    counters id (next uuids w op).db = counters id w.db ∧ Rests id limits (next uuids w op).db := by
  obtain ⟨k, env, estimate, goal, row, rfl, hk, rfl, hr, hrow, rfl⟩ := h
  have hd := does_of_reply hc.goals hr
  have hcount : counters goal.id _ = charged _ (reservedBy goal.id _ _ _) :=
    counters_does hd fun ⟨_, he⟩ => by cases he
  rw [reservedBy_error] at hcount
  refine ⟨hcount, ?_⟩
  generalize (next uuids w (.worker k (.reserve env estimate))).db = db' at hd
  cases hd with
  | failed he => exact absurd rfl (he k env estimate rfl)
  | @refuse _ _ _ goal' row' hk' hrow' hlease hactive hover =>
    rw [hk] at hk'
    cases hk'
    rw [hrow] at hrow'
    cases hrow'
    have hid := (goal_mem hrow).2
    refine ⟨?_, { row with
      state := .paused
      detail := "Cumulative goal inference budget reached; extend its limits before resuming"
      updated := env.now }, ?_, Or.inl rfl⟩
    · exact blocked_setBlocked.trans (if_pos hid.symm)
    · refine (goal_update rfl (fun g _ => ?_) goal.id).trans ?_
      · rfl
      · rw [hrow, Option.map_some]
        exact congrArg some (if_pos rfl)

/-- **The cumulative budget of a goal in a run.** -/
structure WithinBudget (uuids : Uuids) (id : String) (ops : List (Op workspaceKey)) : Prop where
  requests : ∀ row ∈ (run (next uuids) {} ops).db.goal id,
    row.requests = (reservations uuids id ops).length
  tokenEstimate : ∀ row ∈ (run (next uuids) {} ops).db.goal id,
    row.tokenEstimate = (reservations uuids id ops).sum
  reserves : Along (next uuids) (fun w op => ∀ estimate ∈ reservation uuids id w op,
    ∃ row ∈ w.db.goal id, row.requests + 1 ≤ row.spec.maxRequests ∧
      row.tokenEstimate + estimate ≤ row.spec.maxTokenEstimate) {} ops
  claims : Along (next uuids) (fun w op => ∀ goal, reply uuids w op = .ok (.claimed (some goal)) →
    goal.id = id → ∃ row ∈ w.db.goal id, row.cycles + 1 ≤ row.spec.maxCycles) {} ops
  refusals : Along (next uuids) (fun w op => ∀ limits, Refuses uuids id limits w op →
    counters id (next uuids w op).db = counters id w.db ∧
    ∀ later : List (Op workspaceKey), (∀ op ∈ later, ¬ Deletes id op) →
      Along (next uuids) (fun w op => ¬ Raised uuids id limits w op) (next uuids w op) later →
      Along (next uuids) (fun w op => ¬ Works uuids id w op) (next uuids w op) later) {} ops

theorem along_of_constraints {P : World → Op workspaceKey → Prop} {ops : List (Op workspaceKey)}
    (h : ∀ w op, w.db.Constraints → P w op) : Along (next uuids) P {} ops :=
  along_of_inv (I := fun w : World => w.db.Constraints) (G := fun _ _ => True)
    (fun _ _ hc _ => constraints_result hc) (fun w op hc _ => h w op hc) empty_constraints
    (along_of_forall fun _ _ => trivial)

end Smara.Goals.Budget
