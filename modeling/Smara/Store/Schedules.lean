import Mathlib
import Smara.Lib.Page
import Smara.Store.Schema
import Smara.TaskStore.Effects

/-! # Recurring schedules

A schedule is due when the text of its next run is at most the text of the present time, which is in UTC.
A text in another time zone names another time than it shows.

* `catchUp`: the loop that skips the backlog; `catchUp_ok`, `isLeast_catchUp`: what it returns.
* `fire_spec`: what a call of `fire_due_schedules` fires.
* `fired_once`: in every run whose calls find no schedule ahead of its time, every occurrence is fired
  once, and a cancelled schedule no more. -/

namespace Smara.Store.Schedules

open Lib.Machine Lib.Page Lib.Table Lib.Transaction
open TaskStore.Schema TaskStore.Schema.TaskDb TaskStore.Lifecycle TaskStore.Effects
open Store.Schema

/-! ### Texts of times -/

def wall (s : Stamp) : Time := s.time + s.utcOffset

/-- The last wall clock of a `datetime`: the end of the year 9999. -/
def lastWall : Time := 253402300799999999

/-- Where the text of the offset stands: `+00:00`, then the zones ahead of UTC, then those behind it. -/
def zone (s : Stamp) : ℤ := if 0 ≤ s.utcOffset then s.utcOffset else seconds 86400 - s.utcOffset

def TextLe (s s' : Stamp) : Prop := wall s < wall s' ∨ (wall s = wall s' ∧ zone s ≤ zone s')

instance (s s' : Stamp) : Decidable (TextLe s s') :=
  inferInstanceAs (Decidable (wall s < wall s' ∨ (wall s = wall s' ∧ zone s ≤ zone s')))

/-- `_now()` as a text. -/
def nowText (now : Time) : Stamp := ⟨now, 0⟩

/-! ### The calls -/

/-- What stops a call. -/
inductive Halt
  | raised (e : Err)
  | overflowError
  /-- the loop does not end -/
  | hangs
  deriving DecidableEq

/-- `while next_run <= current: next_run += timedelta(seconds=interval_seconds)` -/
def catchUp (intervalSeconds : ℤ) (now : Time) (next : Stamp) : Except Halt Stamp :=
  if now < next.time then .ok next
  else if intervalSeconds ≤ 0 then .error (if intervalSeconds = 0 then .hangs else .overflowError)
  else if wall next + seconds intervalSeconds ≤ lastWall then
    catchUp intervalSeconds now { next with time := next.time + seconds intervalSeconds }
  else .error .overflowError
termination_by (now + 1 - next.time).toNat
decreasing_by
  unfold seconds
  rw [Int.toNat_lt_toNat] <;> linarith

/-- `create_schedule`, up to the reading of the row. -/
def createSchedule (env : Env) (accountId workspaceId title objective : String) (intervalSeconds : ℤ)
    (nextRunAt : Stamp) (requiresApproval : Bool) (steps : List StepInput) :
    StoreDb → Except Err Unit × StoreDb :=
  transact fun st => .ok ((), { st with
    schedules := st.schedules ++ [{
      id := env.uuid st.schedules.length, accountId, workspaceId, title, objective, intervalSeconds, steps
      requiresApproval, nextRunAt, enabled := true, lastRunAt := none, lastTaskId := none, leaseOwner := none
      leaseExpiresAt := none, createdAt := env.now, updatedAt := env.now }] })

/-- `cancel_schedule`. The update of no row commits before the error is raised. -/
def cancelSchedule (env : Env) (scheduleId : Uuid) (accountId : String) : StoreDb → Except Err Unit × StoreDb :=
  andThen (transact fun st => .ok (st.schedules.countP fun s => s.id = scheduleId ∧ s.accountId = accountId,
    { st with
      schedules := updateWhere (fun s => s.id = scheduleId ∧ s.accountId = accountId)
        (fun s => { s with enabled := false, updatedAt := env.now }) st.schedules }))
    fun rowcount => query fun _ => if rowcount = 1 then .ok () else .error (.keyErrorId scheduleId)

/-- `UPDATE schedules SET lease_owner=NULL,lease_expires_at=NULL WHERE lease_expires_at<?` -/
def release (now : Time) (schedules : List Schedule) : List Schedule :=
  updateWhere (fun s => ∃ t ∈ s.leaseExpiresAt, t < now)
    (fun s => { s with leaseOwner := none, leaseExpiresAt := none }) schedules

/-- The condition of the `SELECT`. -/
def Due (now : Time) (s : Schedule) : Prop :=
  s.enabled = true ∧ TextLe s.nextRunAt (nowText now) ∧ ∀ t ∈ s.leaseExpiresAt, t ≤ now

instance (now : Time) (s : Schedule) : Decidable (Due now s) := inferInstanceAs (Decidable (_ ∧ _ ∧ _))

/-- `ORDER BY next_run_at,id` -/
def before (s s' : Schedule) : Bool :=
  if s.nextRunAt = s'.nextRunAt then s.id ≤ s'.id else TextLe s.nextRunAt s'.nextRunAt

/-- The rows of the `SELECT`. -/
def dueRows (now : Time) (limit : ℕ) (schedules : List Schedule) : List Schedule :=
  page (Due now) before limit (release now schedules)

structure Fired where
  scheduleId : Uuid
  taskId : Uuid
  accountId : String
  deriving DecidableEq

/-- The row of the schedule after it was fired. -/
def advance (now : Time) (taskId : Uuid) (next : Stamp) (s : Schedule) : Schedule :=
  { s with nextRunAt := next, lastRunAt := some now, lastTaskId := some taskId, leaseOwner := none
           leaseExpiresAt := none, updatedAt := now }

/-- The body of the loop of `fire_due_schedules`. -/
def fireRow (env : Env) (now : Time) (s : Schedule) (st : StoreDb) : Except Halt (Fired × StoreDb) :=
  match insertTask env s.accountId s.workspaceId s.title s.objective s.requiresApproval s.steps .hosted now
      st.tasks with
  | .error e => .error (.raised e)
  | .ok (taskId, tasks) =>
    match catchUp s.intervalSeconds now s.nextRunAt with
    | .error halt => .error halt
    | .ok next =>
      .ok (⟨s.id, taskId, s.accountId⟩, { st with
        tasks := logEvent env taskId "schedule.fired" (.obj [("schedule_id", .num s.id)]) now tasks
        schedules := updateWhere (fun r => r.id = s.id) (advance now taskId next) st.schedules })

/-- The loop of `fire_due_schedules`. -/
def fireRows (env : Env) (now : Time) : List Schedule → StoreDb → Except Halt (List Fired × StoreDb)
  | [], st => .ok ([], st)
  | s :: rows, st =>
    match fireRow env now s st with
    | .error halt => .error halt
    | .ok (fired, st) =>
      match fireRows env now rows st with
      | .error halt => .error halt
      | .ok (due, st) => .ok (fired :: due, st)

def fireDueSchedules (env : Env) (limit : ℕ) : StoreDb → Except Halt (List Fired) × StoreDb :=
  commit StoreDb.Constraints (.raised .integrityError) fun st =>
    fireRows env env.now (dueRows env.now limit st.schedules)
      { st with schedules := release env.now st.schedules }

/-! ### The loop that skips the backlog -/

section CatchUp
variable {interval : ℤ} {now : Time} {next next' : Stamp}

theorem catchUp_ok (h : catchUp interval now next = .ok next') :
    next'.utcOffset = next.utcOffset ∧ now < next'.time ∧
      ∃ k : ℕ, next'.time = next.time + k * seconds interval ∧
        (k = 0 ∨ (0 < interval ∧ next'.time - seconds interval ≤ now)) := by
  fun_induction catchUp interval now next with
  | case1 next hlt =>
    obtain rfl := Except.ok.inj h
    exact ⟨rfl, hlt, 0, by simp, Or.inl rfl⟩
  | case2 => simp at h
  | case3 next hle hpos hwall ih =>
    obtain ⟨hoffset, hlt, k, hk, hlast⟩ := ih h
    refine ⟨hoffset, hlt, k + 1, ?_, Or.inr ⟨not_le.mp hpos, ?_⟩⟩
    · rw [hk]
      push_cast
      ring
    · rcases hlast with rfl | hlast
      · simp only [Nat.cast_zero, zero_mul, add_zero] at hk
        linarith
      · exact hlast.2
  | case4 => simp at h

/-- **The loop ends**, unless it comes to the last year. -/
theorem catchUp_ends (hpos : 0 < interval) : (∃ next', catchUp interval now next = .ok next') ∨
    (catchUp interval now next = .error .overflowError ∧
      ∃ k : ℕ, next.time + k * seconds interval ≤ now ∧ lastWall < wall next + (k + 1) * seconds interval) := by
  fun_induction catchUp interval now next with
  | case1 next hlt => exact Or.inl ⟨next, rfl⟩
  | case2 next hle hneg => omega
  | case3 next hle hinterval hwall ih =>
    rcases ih with hok | ⟨hover, k, hk, hlast⟩
    · exact Or.inl hok
    · refine Or.inr ⟨hover, k + 1, ?_, ?_⟩
      · push_cast
        linarith
      · simp only [wall] at hlast ⊢
        push_cast
        linarith
  | case4 next hle hinterval hwall => exact Or.inr ⟨rfl, 0, by simpa using hle, by simpa using hwall⟩

/-- **What the loop leaves** is the least time after the present that is a number of intervals away. -/
theorem isLeast_catchUp (hpos : 0 < interval) (h : catchUp interval now next = .ok next') :
    IsLeast { t | now < t ∧ ∃ k : ℕ, t = next.time + k * seconds interval } next'.time := by
  obtain ⟨-, hlt, k, hk, hlast⟩ := catchUp_ok h
  refine ⟨⟨hlt, k, hk⟩, ?_⟩
  rintro t ⟨ht, j, rfl⟩
  have hsecond : 0 < seconds interval := by
    unfold seconds
    linarith
  rcases hlast with rfl | ⟨-, hlast⟩
  · simp only [Nat.cast_zero, zero_mul, add_zero] at hk
    have hmul : 0 ≤ (j : ℤ) * seconds interval := mul_nonneg (Int.natCast_nonneg j) hsecond.le
    linarith
  · have hj : (k : ℤ) ≤ j := by
      by_contra hlt'
      have hmul : ((j : ℤ) + 1) * seconds interval ≤ k * seconds interval :=
        mul_le_mul_of_nonneg_right (by omega) hsecond.le
      linarith
    have hmul := mul_le_mul_of_nonneg_right hj hsecond.le
    linarith

end CatchUp

/-! ### What a call fires -/

/-- What the calls keep of every row. -/
structure Kept (g : Schedule → Schedule) : Prop where
  id : ∀ r, (g r).id = r.id
  accountId : ∀ r, (g r).accountId = r.accountId
  enabled : ∀ r, (g r).enabled = r.enabled
  interval : ∀ r, (g r).intervalSeconds = r.intervalSeconds

theorem Kept.comp {g g' : Schedule → Schedule} (h : Kept g) (h' : Kept g') : Kept (g' ∘ g) :=
  ⟨fun r => (h'.id _).trans (h.id r), fun r => (h'.accountId _).trans (h.accountId r),
    fun r => (h'.enabled _).trans (h.enabled r), fun r => (h'.interval _).trans (h.interval r)⟩

section Fire
variable {env : Env} {now : Time} {limit : ℕ} {s : Schedule} {rows : List Schedule} {st st' : StoreDb}
  {f : Fired} {due : List Fired}

theorem fireRow_ok (h : fireRow env now s st = .ok (f, st')) : f.scheduleId = s.id ∧ f.accountId = s.accountId ∧
    (∃ task, st'.tasks.tasks = st.tasks.tasks ++ [task] ∧ task.id = f.taskId ∧ task.accountId = s.accountId) ∧
    ∃ next, catchUp s.intervalSeconds now s.nextRunAt = .ok next ∧
      st'.schedules = updateWhere (fun r => r.id = s.id) (advance now f.taskId next) st.schedules := by
  unfold fireRow at h
  split at h
  · simp at h
  · next taskId tasks hinsert =>
    split at h
    · simp at h
    · next next' hnext =>
      simp only [Except.ok.injEq, Prod.mk.injEq] at h
      obtain ⟨rfl, rfl⟩ := h
      obtain ⟨task, -, rfl, haccount, -, -, -, -, rfl⟩ := insertTask_ok hinsert
      exact ⟨rfl, rfl, ⟨task, rfl, rfl, haccount⟩, next', hnext, rfl⟩

/-- **What the loop does with the rows.** -/
theorem fireRows_ok (h : fireRows env now rows st = .ok (due, st')) :
    due.map Fired.scheduleId = rows.map Schedule.id ∧
    (∃ new, st'.tasks.tasks = st.tasks.tasks ++ new ∧ new.map Task.id = due.map Fired.taskId ∧
      new.map Task.accountId = rows.map Schedule.accountId) ∧
    ∃ g, Kept g ∧ st'.schedules = st.schedules.map g ∧ (∀ r, r.id ∉ rows.map Schedule.id → g r = r) ∧
      (Keyed Schedule.id rows → ∀ s ∈ rows, ∃ next, catchUp s.intervalSeconds now s.nextRunAt = .ok next ∧
        ∀ r, r.id = s.id → (g r).nextRunAt = next) := by
  induction rows generalizing st due with
  | nil =>
    simp only [fireRows, Except.ok.injEq, Prod.mk.injEq] at h
    obtain ⟨rfl, rfl⟩ := h
    exact ⟨rfl, ⟨[], by simp, rfl, rfl⟩, id, ⟨fun _ => rfl, fun _ => rfl, fun _ => rfl, fun _ => rfl⟩, by simp,
      fun _ _ => rfl, fun _ s hs => absurd hs List.not_mem_nil⟩
  | cons s rows ih =>
    unfold fireRows at h
    split at h
    · simp at h
    · next f st₁ hrow =>
      split at h
      · simp at h
      · next due' st₂ hrows =>
        simp only [Except.ok.injEq, Prod.mk.injEq] at h
        obtain ⟨rfl, rfl⟩ := h
        obtain ⟨hid, -, ⟨task, htask, htid, haccount⟩, next, hnext, hschedules⟩ := fireRow_ok hrow
        obtain ⟨hids, ⟨new, hnew, hnewids, haccounts⟩, g, hkept, hmap, hothers, hall⟩ := ih hrows
        let g₁ : Schedule → Schedule := fun r => if r.id = s.id then advance now f.taskId next r else r
        have hkept₁ : Kept g₁ := by
          constructor <;> intro r <;> simp only [g₁] <;> split_ifs <;> rfl
        refine ⟨by simp [hid, hids], ⟨task :: new, by simp [hnew, htask], by simp [htid, hnewids],
          by simp [haccount, haccounts]⟩, g ∘ g₁, hkept₁.comp hkept, ?_, fun r hr => ?_, fun hkeyed s' hs' => ?_⟩
        · rw [hmap, hschedules]
          simp [updateWhere, g₁]
        · simp only [List.map_cons, List.mem_cons, not_or] at hr
          simp only [Function.comp_apply, g₁, if_neg hr.1]
          exact hothers r hr.2
        · obtain ⟨hfresh, hrest⟩ := List.nodup_cons.mp hkeyed
          rcases List.mem_cons.mp hs' with rfl | hs'
          · refine ⟨next, hnext, fun r hr => ?_⟩
            have hsame : (advance now f.taskId next r).id ∉ rows.map Schedule.id := by
              rw [show (advance now f.taskId next r).id = s'.id from hr]
              exact hfresh
            simp only [Function.comp_apply, g₁, if_pos hr]
            rw [hothers _ hsame]
            rfl
          · obtain ⟨next', hnext', hr'⟩ := hall hrest s' hs'
            refine ⟨next', hnext', fun r hr => ?_⟩
            exact hr' (g₁ r) ((hkept₁.id r).trans hr)

theorem release_eq (now : Time) : ∃ g, Kept g ∧ (∀ r, (g r).nextRunAt = r.nextRunAt) ∧
    ∀ schedules, release now schedules = schedules.map g := by
  refine ⟨fun s => if ∃ t ∈ s.leaseExpiresAt, t < now then { s with leaseOwner := none, leaseExpiresAt := none } else s,
    ?_, ?_, fun _ => rfl⟩
  · constructor <;> intro r <;> split_ifs <;> rfl
  · intro r
    dsimp only
    split_ifs <;> rfl

/-- **What a call fires**: schedules that are enabled and whose text is due, each once; it creates a task for
each, and moves the schedule on. -/
theorem fire_spec (hkeyed : Keyed Schedule.id st.schedules) (h : fireDueSchedules env limit st = (.ok due, st')) :
    (due.map Fired.scheduleId).Nodup ∧ due.map Fired.scheduleId = (dueRows env.now limit st.schedules).map Schedule.id ∧
    (∃ new, st'.tasks.tasks = st.tasks.tasks ++ new ∧ new.map Task.id = due.map Fired.taskId ∧
      new.map Task.accountId = (dueRows env.now limit st.schedules).map Schedule.accountId) ∧
    (∀ x ∈ due, ∃ r ∈ st.schedules, r.id = x.scheduleId) ∧
    ∃ g, Kept g ∧ st'.schedules = st.schedules.map g ∧ ∀ r ∈ st.schedules,
      (r.id ∉ due.map Fired.scheduleId → (g r).nextRunAt = r.nextRunAt) ∧
      (r.id ∈ due.map Fired.scheduleId → r.enabled = true ∧ TextLe r.nextRunAt (nowText env.now) ∧
        catchUp r.intervalSeconds env.now r.nextRunAt = .ok (g r).nextRunAt) := by
  obtain ⟨hrows, -⟩ := commit_ok h
  obtain ⟨hids, hnew, g, hkept, hmap, hothers, hall⟩ := fireRows_ok hrows
  obtain ⟨g₀, hkept₀, hsame, hrelease⟩ := release_eq env.now
  have hkeyed₀ : Keyed Schedule.id (release env.now st.schedules) := by
    rw [hrelease, Keyed, List.map_map]
    rwa [show Schedule.id ∘ g₀ = Schedule.id from funext hkept₀.id]
  have hpage : Keyed Schedule.id (dueRows env.now limit st.schedules) := keyed_page hkeyed₀
  have hrow : ∀ s ∈ dueRows env.now limit st.schedules, ∃ r ∈ st.schedules, g₀ r = s ∧ Due env.now s := by
    intro s hs
    obtain ⟨hmem, hdue⟩ := mem_of_mem_page hs
    rw [hrelease] at hmem
    obtain ⟨r, hr, rfl⟩ := List.mem_map.mp hmem
    exact ⟨r, hr, rfl, hdue⟩
  refine ⟨hids ▸ hpage, hids, hnew, fun x hx => ?_, g ∘ g₀, hkept₀.comp hkept, ?_, fun r hr => ⟨fun hout => ?_, fun hin => ?_⟩⟩
  · have hmem : x.scheduleId ∈ due.map Fired.scheduleId := List.mem_map_of_mem hx
    rw [hids] at hmem
    obtain ⟨s, hs, hid⟩ := List.mem_map.mp hmem
    obtain ⟨r, hr, rfl, -⟩ := hrow s hs
    exact ⟨r, hr, (hkept₀.id r).symm.trans hid⟩
  · rw [hmap, hrelease, List.map_map]
  · rw [hids] at hout
    rw [Function.comp_apply, hothers _ (by rwa [hkept₀.id]), hsame]
  · rw [hids] at hin
    obtain ⟨s, hs, hid⟩ := List.mem_map.mp hin
    obtain ⟨next, hnext, hmoved⟩ := hall hpage s hs
    obtain ⟨r', hr', rfl, henabled, htext, -⟩ := hrow s hs
    obtain rfl : r' = r := hkeyed.eq_of_key hr' hr ((hkept₀.id r').symm.trans hid)
    rw [hkept₀.enabled] at henabled
    rw [hsame] at htext hnext
    rw [hkept₀.interval] at hnext
    exact ⟨henabled, htext, by rw [Function.comp_apply, hmoved _ rfl]; exact hnext⟩

end Fire

/-! ### Runs -/

inductive Op
  | create (env : Env) (accountId workspaceId title objective : String) (intervalSeconds : ℤ) (nextRunAt : Stamp)
      (requiresApproval : Bool) (steps : List StepInput)
  | cancel (env : Env) (scheduleId : Uuid) (accountId : String)
  | fire (env : Env) (limit : ℕ)
  /-- any other call: it leaves the schedules alone -/
  | elsewhere (after : StoreDb)

def step (st : StoreDb) : Op → StoreDb
  | .create env accountId workspaceId title objective intervalSeconds nextRunAt requiresApproval steps =>
    (createSchedule env accountId workspaceId title objective intervalSeconds nextRunAt requiresApproval steps st).2
  | .cancel env scheduleId accountId => (cancelSchedule env scheduleId accountId st).2
  | .fire env limit => (fireDueSchedules env limit st).2
  | .elsewhere after => { after with schedules := st.schedules }

/-- The interval is at least a minute. -/
def Regular : Op → Prop
  | .create _ _ _ _ _ intervalSeconds _ _ _ => 60 ≤ intervalSeconds
  | _ => True

def fired (st : StoreDb) : Op → List Fired
  | .fire env limit =>
    match (fireDueSchedules env limit st).1 with
    | .ok due => due
    | .error _ => []
  | _ => []

def nextRun (st : StoreDb) (scheduleId : Uuid) : Time :=
  ((lookup Schedule.id scheduleId st.schedules).map fun s => s.nextRunAt.time).getD 0

def occurrences (st : StoreDb) (op : Op) : List (Uuid × Time) :=
  (fired st op).map fun f => (f.scheduleId, nextRun st f.scheduleId)

/-- The occurrences for which the calls create tasks, in their order. -/
def firings : StoreDb → List Op → List (Uuid × Time)
  | _, [] => []
  | st, op :: ops => occurrences st op ++ firings (step st op) ops

def Ahead (now : Time) (s : Stamp) : Prop := wall s < now ∧ now < s.time

instance (now : Time) (s : Stamp) : Decidable (Ahead now s) := inferInstanceAs (Decidable (_ ∧ _))

def Timely (st : StoreDb) : Op → Prop
  | .fire env limit => ∀ s ∈ dueRows env.now limit st.schedules, ¬ Ahead env.now s.nextRunAt
  | _ => True

/-- **What a call may fire**: schedules whose next run has come, each once; it leaves as their next runs the
least times after the present that are numbers of intervals away. -/
def FiresDue (st : StoreDb) : Op → Prop
  | .fire env limit =>
    (fireDueSchedules env limit st).1 ≠ .error .hangs ∧ ∀ due st', fireDueSchedules env limit st = (.ok due, st') →
      (due.map Fired.scheduleId).Nodup ∧
      (∃ new, st'.tasks.tasks = st.tasks.tasks ++ new ∧ new.map Task.id = due.map Fired.taskId) ∧
      ∀ f ∈ due, ∃ s ∈ st.schedules, ∃ s' ∈ st'.schedules, s.id = f.scheduleId ∧ s'.id = f.scheduleId ∧
        s.enabled = true ∧ s.nextRunAt.time ≤ env.now ∧
        IsLeast { t | env.now < t ∧ ∃ k : ℕ, t = s.nextRunAt.time + k * seconds s.intervalSeconds } s'.nextRunAt.time
  | _ => True

/-- **Every occurrence is fired once**, and a cancelled schedule no more. -/
structure OncePerOccurrence (st : StoreDb) (ops : List Op) : Prop where
  calls : Along step FiresDue st ops
  once : (firings st ops).Nodup
  cancelled : ∀ pre env scheduleId accountId post, ops = pre ++ .cancel env scheduleId accountId :: post →
    (cancelSchedule env scheduleId accountId (run step st pre)).1 = .ok () →
    ∀ x ∈ firings (step (run step st pre) (.cancel env scheduleId accountId)) post, x.1 ≠ scheduleId

/-- The schedules have ids of their own, and intervals of a minute at least. -/
structure Inv (st : StoreDb) : Prop where
  keyed : Keyed Schedule.id st.schedules
  interval : ∀ s ∈ st.schedules, s.enabled = true → 60 ≤ s.intervalSeconds

section Run
variable {st st' : StoreDb} {op : Op} {ops : List Op} {s : Schedule} {x : Uuid × Time}

theorem time_le_of_due {now : Time} {n : Stamp} (htext : TextLe n (nowText now)) (hahead : ¬ Ahead now n) :
    n.time ≤ now := by
  rcases htext with hlt | ⟨heq, hzone⟩
  · have hwall : wall n < now := by simpa [nowText, wall] using hlt
    by_contra hnot
    exact hahead ⟨hwall, not_le.mp hnot⟩
  · simp only [wall, zone, nowText, add_zero, le_refl, if_true, seconds] at heq hzone
    split_ifs at hzone with hsign <;> linarith

/-- What a call leaves of the schedules, and what it adds. -/
structure Change (st st' : StoreDb) (g : Schedule → Schedule) (new : List Schedule) : Prop where
  schedules : st'.schedules = st.schedules.map g ++ new
  id : ∀ s ∈ st.schedules, (g s).id = s.id
  interval : ∀ s ∈ st.schedules, (g s).intervalSeconds = s.intervalSeconds
  enabled : ∀ s ∈ st.schedules, (g s).enabled = true → s.enabled = true
  next : ∀ s ∈ st.schedules, s.nextRunAt.time ≤ (g s).nextRunAt.time
  fresh : Keyed Schedule.id st'.schedules

theorem Change.refl (h : Inv st) (heq : st'.schedules = st.schedules) : Change st st' (fun s => s) [] :=
  ⟨by simp [heq], fun _ _ => rfl, fun _ _ => rfl, fun _ _ hs => hs, fun _ _ => le_rfl, heq ▸ h.keyed⟩

theorem transact_snd {β : Type} (body : StoreDb → Except Err (β × StoreDb)) (st : StoreDb) :
    (transact body st).2 = st ∨
      ∃ b, body st = .ok (b, (transact body st).2) ∧ (transact body st).2.Constraints := by
  rcases transact_cases body st with ⟨b, st', hbody, hvalid, heq⟩ | ⟨e, heq⟩
  · rw [heq]
    exact Or.inr ⟨b, hbody, hvalid⟩
  · rw [heq]
    exact Or.inl rfl

theorem cancelSchedule_snd (env : Env) (scheduleId : Uuid) (accountId : String) (st : StoreDb) :
    (cancelSchedule env scheduleId accountId st).2 =
      (transact (fun st => .ok (st.schedules.countP fun s => s.id = scheduleId ∧ s.accountId = accountId, { st with
        schedules := updateWhere (fun s => s.id = scheduleId ∧ s.accountId = accountId)
          (fun s => { s with enabled := false, updatedAt := env.now }) st.schedules })) st).2 := by
  unfold cancelSchedule andThen
  split
  · next heq => exact (congrArg Prod.snd heq).symm
  · next heq => exact (congrArg Prod.snd heq).symm

/-- **What any call does with the schedules.** -/
theorem exists_change (h : Inv st) (op : Op) (hop : Regular op) : ∃ g new, Change st (step st op) g new ∧
    ∀ s ∈ new, 60 ≤ s.intervalSeconds := by
  cases op with
  | create env accountId workspaceId title objective intervalSeconds nextRunAt requiresApproval steps =>
    rcases transact_snd _ st with heq | ⟨b, hbody, hvalid⟩
    · exact ⟨_, [], .refl h (congrArg StoreDb.schedules heq), by simp⟩
    · simp only [Except.ok.injEq, Prod.mk.injEq] at hbody
      have hschedules := (congrArg StoreDb.schedules hbody.2).symm
      refine ⟨fun s => s, _, ⟨by rw [List.map_id']; exact hschedules, fun _ _ => rfl, fun _ _ => rfl, fun _ _ hs => hs,
        fun _ _ => le_rfl, hvalid.schedules⟩, fun s hs => ?_⟩
      obtain rfl := List.mem_singleton.mp hs
      exact hop
  | cancel env scheduleId accountId =>
    rw [show step st (.cancel env scheduleId accountId) = _ from cancelSchedule_snd env scheduleId accountId st]
    rcases transact_snd _ st with heq | ⟨b, hbody, hvalid⟩
    · exact ⟨_, [], .refl h (congrArg StoreDb.schedules heq), by simp⟩
    · simp only [Except.ok.injEq, Prod.mk.injEq] at hbody
      have hschedules := (congrArg StoreDb.schedules hbody.2).symm
      refine ⟨_, [], ⟨by rw [List.append_nil]; exact hschedules, ?_, ?_, ?_, ?_, hvalid.schedules⟩, by simp⟩ <;>
        intro s _ <;> dsimp only <;> split_ifs <;> simp
  | fire env limit =>
    cases hcall : fireDueSchedules env limit st with
    | mk r st' =>
      have hstep : step st (.fire env limit) = st' := congrArg Prod.snd hcall
      rw [hstep]
      cases r with
      | error e =>
        have hsame : st' = st := by
          rcases commit_eq StoreDb.Constraints (Halt.raised Err.integrityError) _ st with ⟨b, s', -, -, heq⟩ | ⟨e', heq⟩
          · exact absurd (congrArg Prod.fst (hcall.symm.trans heq)) (by simp)
          · exact congrArg Prod.snd (hcall.symm.trans heq)
        exact ⟨_, [], .refl h (congrArg StoreDb.schedules hsame), by simp⟩
      | ok due =>
        obtain ⟨-, -, -, -, g, hkept, hmap, hmoved⟩ := fire_spec h.keyed hcall
        refine ⟨g, [], ⟨by simp [hmap], fun s _ => hkept.id s, fun s _ => hkept.interval s,
          fun s _ hs => (hkept.enabled s).symm.trans hs, fun s hs => ?_, (commit_ok hcall).2.schedules⟩, by simp⟩
        by_cases hin : s.id ∈ due.map Fired.scheduleId
        · obtain ⟨-, -, hcatch⟩ := (hmoved s hs).2 hin
          obtain ⟨-, hlt, k, hk, hlast⟩ := catchUp_ok hcatch
          rcases hlast with rfl | ⟨hpos, -⟩
          · simp only [Nat.cast_zero, zero_mul, add_zero] at hk
            exact hk.ge
          · have hmul : 0 ≤ (k : ℤ) * seconds s.intervalSeconds := by
              refine mul_nonneg (Int.natCast_nonneg k) ?_
              unfold seconds
              linarith
            linarith
        · exact ((hmoved s hs).1 hin).symm ▸ le_rfl
  | elsewhere after => exact ⟨_, [], .refl h rfl, by simp⟩

theorem Inv.step (h : Inv st) (op : Op) (hop : Regular op) : Inv (step st op) := by
  obtain ⟨g, new, hchange, hnew⟩ := exists_change h op hop
  refine ⟨hchange.fresh, fun s hs henabled => ?_⟩
  rw [hchange.schedules] at hs
  rcases List.mem_append.mp hs with hs | hs
  · obtain ⟨r, hr, rfl⟩ := List.mem_map.mp hs
    rw [hchange.interval r hr]
    exact h.interval r hr (hchange.enabled r hr henabled)
  · exact hnew s hs

theorem stays (h : Inv st) (op : Op) (hop : Regular op) (hs : s ∈ st.schedules) :
    ∃ s' ∈ (step st op).schedules, s'.id = s.id ∧ s.nextRunAt.time ≤ s'.nextRunAt.time ∧
      (s'.enabled = true → s.enabled = true) := by
  obtain ⟨g, new, hchange, -⟩ := exists_change h op hop
  refine ⟨g s, ?_, hchange.id s hs, hchange.next s hs, hchange.enabled s hs⟩
  rw [hchange.schedules]
  exact List.mem_append_left _ (List.mem_map_of_mem hs)

theorem nextRun_eq (h : Inv st) (hs : s ∈ st.schedules) : nextRun st s.id = s.nextRunAt.time := by
  unfold nextRun
  rw [lookup_key h.keyed hs]
  rfl

theorem of_mem_fired {f : Fired} (h : f ∈ fired st op) : ∃ env limit due st', op = .fire env limit ∧
    fireDueSchedules env limit st = (.ok due, st') ∧ f ∈ due ∧ fired st op = due ∧ step st op = st' := by
  cases op with
  | fire env limit =>
    cases hcall : fireDueSchedules env limit st with
    | mk r st' =>
      cases r with
      | error e => simp [fired, hcall] at h
      | ok due =>
        simp only [fired, hcall] at h
        exact ⟨env, limit, due, st', rfl, hcall, h, by simp [fired, hcall], congrArg Prod.snd hcall⟩
  | create | cancel | elsewhere => exact absurd h List.not_mem_nil

theorem of_mem_occurrences (h : Inv st) (hx : x ∈ occurrences st op) :
    ∃ s ∈ st.schedules, s.id = x.1 ∧ s.nextRunAt.time = x.2 ∧ s.enabled = true := by
  obtain ⟨f, hf, rfl⟩ := List.mem_map.mp hx
  obtain ⟨env, limit, due, st', rfl, hcall, hmem, -⟩ := of_mem_fired hf
  obtain ⟨-, -, -, hrows, g, -, -, hmoved⟩ := fire_spec h.keyed hcall
  obtain ⟨s, hs, hid⟩ := hrows f hmem
  obtain ⟨henabled, -⟩ := (hmoved s hs).2 (hid ▸ List.mem_map_of_mem hmem)
  exact ⟨s, hs, hid, by rw [← nextRun_eq h hs, hid], henabled⟩

/-- **Later occurrences are not before the next run**, and a schedule that is fired later is enabled. -/
theorem le_of_firings (h : Inv st) (hops : ∀ op ∈ ops, Regular op) (hs : s ∈ st.schedules)
    (hx : x ∈ firings st ops) (hid : s.id = x.1) : s.nextRunAt.time ≤ x.2 ∧ s.enabled = true := by
  induction ops generalizing st s with
  | nil => exact absurd hx List.not_mem_nil
  | cons op ops ih =>
    obtain ⟨hop, hrest⟩ := List.forall_mem_cons.mp hops
    rcases List.mem_append.mp hx with hx | hx
    · obtain ⟨r, hr, hrid, hnext, henabled⟩ := of_mem_occurrences h hx
      obtain rfl := h.keyed.eq_of_key hr hs (hrid.trans hid.symm)
      exact ⟨hnext.le, henabled⟩
    · obtain ⟨s', hs', hid', hle, henabled⟩ := stays h op hop hs
      obtain ⟨hle', henabled'⟩ := ih (h.step op hop) hrest hs' hx (hid'.trans hid)
      exact ⟨hle.trans hle', henabled henabled'⟩

theorem fired_on_time (h : Inv st) {env : Env} {limit : ℕ} {due : List Fired}
    (hcall : fireDueSchedules env limit st = (.ok due, st')) (htimely : Timely st (.fire env limit)) {f : Fired}
    (hf : f ∈ due) : ∃ s ∈ st.schedules, ∃ s' ∈ st'.schedules, s.id = f.scheduleId ∧ s'.id = f.scheduleId ∧
      s.enabled = true ∧ s.nextRunAt.time ≤ env.now ∧
      IsLeast { t | env.now < t ∧ ∃ k : ℕ, t = s.nextRunAt.time + k * seconds s.intervalSeconds } s'.nextRunAt.time := by
  obtain ⟨-, hids, -, hrows, g, hkept, hmap, hmoved⟩ := fire_spec h.keyed hcall
  obtain ⟨s, hs, hid⟩ := hrows f hf
  have hin : s.id ∈ due.map Fired.scheduleId := hid ▸ List.mem_map_of_mem hf
  obtain ⟨henabled, htext, hcatch⟩ := (hmoved s hs).2 hin
  have hahead : ¬ Ahead env.now s.nextRunAt := by
    rw [hids] at hin
    obtain ⟨row, hrow, hrid⟩ := List.mem_map.mp hin
    obtain ⟨g₀, hkept₀, hsame, hrelease⟩ := release_eq env.now
    have hmem := (mem_of_mem_page hrow).1
    rw [hrelease] at hmem
    obtain ⟨r, hr, rfl⟩ := List.mem_map.mp hmem
    obtain rfl := h.keyed.eq_of_key hr hs ((hkept₀.id r).symm.trans hrid)
    have hnot := htimely _ hrow
    rwa [hsame] at hnot
  refine ⟨s, hs, g s, hmap ▸ List.mem_map_of_mem hs, hid, (hkept.id s).trans hid, henabled,
    time_le_of_due htext hahead, isLeast_catchUp ?_ hcatch⟩
  have hinterval := h.interval s hs henabled
  linarith

theorem fireRows_ne_hangs {env : Env} {now : Time} {rows : List Schedule}
    (hrows : ∀ s ∈ rows, 60 ≤ s.intervalSeconds) : fireRows env now rows st ≠ .error .hangs := by
  induction rows generalizing st with
  | nil => simp [fireRows]
  | cons s rows ih =>
    obtain ⟨hs, hrest⟩ := List.forall_mem_cons.mp hrows
    have hrow : fireRow env now s st ≠ .error .hangs := by
      unfold fireRow
      split
      · simp
      · have hpos : 0 < s.intervalSeconds := by linarith
        have hends : (∃ next, catchUp s.intervalSeconds now s.nextRunAt = .ok next) ∨
            catchUp s.intervalSeconds now s.nextRunAt = .error .overflowError :=
          (catchUp_ends hpos).imp_right And.left
        rcases hends with ⟨next, hnext⟩ | hover
        · simp [hnext]
        · simp [hover]
    unfold fireRows
    split
    · next halt hhalt =>
      intro heq
      exact hrow (hhalt.trans (by rw [Except.error.inj heq]))
    · next f st₁ _ =>
      have hloop : fireRows env now rows st₁ ≠ .error .hangs := ih hrest
      split
      · next halt hhalt =>
        intro heq
        exact hloop (hhalt.trans (by rw [Except.error.inj heq]))
      · simp

theorem fire_ne_hangs (h : Inv st) (env : Env) (limit : ℕ) : (fireDueSchedules env limit st).1 ≠ .error .hangs := by
  intro hhangs
  rcases commit_error hhangs with hbody | hviolation
  · refine fireRows_ne_hangs (fun s hs => ?_) hbody
    obtain ⟨hmem, henabled, -⟩ := mem_of_mem_page hs
    obtain ⟨g₀, hkept₀, -, hrelease⟩ := release_eq env.now
    rw [hrelease] at hmem
    obtain ⟨r, hr, rfl⟩ := List.mem_map.mp hmem
    rw [hkept₀.interval]
    exact h.interval r hr ((hkept₀.enabled r).symm.trans henabled)
  · exact absurd hviolation (by simp)

theorem firesDue_of_timely (h : Inv st) (htimely : Timely st op) : FiresDue st op := by
  cases op with
  | fire env limit =>
    refine ⟨fire_ne_hangs h env limit, fun due st' hcall => ?_⟩
    obtain ⟨hnodup, -, ⟨new, hnew, hids, -⟩, -⟩ := fire_spec h.keyed hcall
    exact ⟨hnodup, ⟨new, hnew, hids⟩, fun f hf => fired_on_time h hcall htimely hf⟩
  | create | cancel | elsewhere => trivial

theorem nodup_firings (h : Inv st) (hops : ∀ op ∈ ops, Regular op) (htimely : Along step Timely st ops) :
    (firings st ops).Nodup := by
  induction ops generalizing st with
  | nil => exact List.nodup_nil
  | cons op ops ih =>
    obtain ⟨hop, hrest⟩ := List.forall_mem_cons.mp hops
    obtain ⟨hnow, hlater⟩ := along_cons.mp htimely
    refine List.nodup_append.mpr ⟨?_, ih (h.step op hop) hrest hlater, ?_⟩
    · refine List.Nodup.of_map Prod.fst ?_
      unfold occurrences
      rw [List.map_map]
      by_cases hempty : fired st op = []
      · simp [hempty]
      · obtain ⟨f, hf⟩ := List.exists_mem_of_ne_nil _ hempty
        obtain ⟨env, limit, due, st', rfl, hcall, -, hdue, -⟩ := of_mem_fired hf
        rw [hdue]
        exact (fire_spec h.keyed hcall).1
    · rintro x hx y hy rfl
      obtain ⟨f, hf, rfl⟩ := List.mem_map.mp hx
      obtain ⟨env, limit, due, st', rfl, hcall, hmem, -, hstep⟩ := of_mem_fired hf
      obtain ⟨s, hs, s', hs', hid, hid', -, hle, hleast⟩ := fired_on_time h hcall hnow hmem
      rw [← hstep] at hs'
      have hback := (le_of_firings (h.step _ hop) hrest hs' hy hid').1
      have hpast := hleast.1.1
      simp only [← hid, nextRun_eq h hs] at hback
      linarith

theorem cancelSchedule_ok {env : Env} {scheduleId : Uuid} {accountId : String}
    (h : (cancelSchedule env scheduleId accountId st).1 = .ok ()) :
    ∃ s ∈ (cancelSchedule env scheduleId accountId st).2.schedules, s.id = scheduleId ∧ s.enabled = false := by
  unfold cancelSchedule andThen at h ⊢
  split
  · next rowcount st' heq =>
    rw [heq] at h
    have hone : rowcount = 1 := by
      by_contra hne
      simp [query, hne] at h
    obtain ⟨hbody, -⟩ := commit_ok heq
    simp only [Except.ok.injEq, Prod.mk.injEq] at hbody
    obtain ⟨hcount, rfl⟩ := hbody
    obtain ⟨s, hs, hp⟩ := List.countP_pos_iff.mp (show 0 < _ from by rw [hcount, hone]; exact Nat.one_pos)
    simp only [decide_eq_true_eq] at hp
    exact ⟨{ s with enabled := false, updatedAt := env.now }, mem_updateWhere.mpr ⟨s, hs, if_pos hp⟩, hp.1, rfl⟩
  · next heq =>
    rw [heq] at h
    simp at h

/-- **Every occurrence is fired once**, in every run that finds no schedule ahead of its time. -/
theorem fired_once (h : Inv st) (hops : ∀ op ∈ ops, Regular op) (htimely : Along step Timely st ops) :
    OncePerOccurrence st ops := by
  refine ⟨?_, nodup_firings h hops htimely, ?_⟩
  · refine along_of_inv (I := Inv) (G := fun st op => Regular op ∧ Timely st op)
      (fun _ op hinv hop => hinv.step op hop.1) (fun _ op hinv hop => firesDue_of_timely hinv hop.2) h ?_
    exact along_and.mpr ⟨along_of_forall hops, htimely⟩
  · rintro pre env scheduleId accountId post rfl hcancel x hx hid
    have hpre : Inv (run step st pre) :=
      inv_run (I := Inv) (G := fun _ op => Regular op) (fun _ op hinv hop => hinv.step op hop) h
        (along_of_forall fun op hop => hops op (List.mem_append_left _ hop))
    obtain ⟨s, hs, hsid, hdisabled⟩ := cancelSchedule_ok hcancel
    have hpost : ∀ op ∈ post, Regular op := fun op hop =>
      hops op (List.mem_append_right _ (List.mem_cons_of_mem _ hop))
    have henabled := (le_of_firings (hpre.step (.cancel env scheduleId accountId) trivial) hpost hs hx (hsid.trans hid.symm)).2
    simp [hdisabled] at henabled

end Run

instance (st : StoreDb) (op : Op) : Decidable (Timely st op) := by
  cases op with
  | fire env limit =>
    exact inferInstanceAs (Decidable (∀ s ∈ dueRows env.now limit st.schedules, ¬ Ahead env.now s.nextRunAt))
  | create | cancel | elsewhere => exact isTrue trivial

def hourly (nextRunAt : Stamp) : StoreDb := { schedules := [{
  id := 0, accountId := "account", workspaceId := "default", title := "Hourly", objective := "Check the mail."
  intervalSeconds := 3600, steps := [], requiresApproval := false, nextRunAt, enabled := true
  lastRunAt := none, lastTaskId := none, leaseOwner := none, leaseExpiresAt := none, createdAt := 0, updatedAt := 0 }] }

/-- Two calls, the first of which skips what was missed. -/
theorem fired_once_hourly :
    firings (hourly ⟨seconds 0, seconds 7200⟩) [.fire (envAt 9000) 10, .fire (envAt 18001) 10] =
      [(0, seconds 0), (0, seconds 10800)] ∧
    OncePerOccurrence (hourly ⟨seconds 0, seconds 7200⟩) [.fire (envAt 9000) 10, .fire (envAt 18001) 10] :=
  ⟨by decide +kernel, fired_once ⟨by decide, by decide⟩ (by simp [Regular]) (by simp only [Along]; decide +kernel)⟩

/-- **A start five hours behind UTC is fired before it has come**, again and again. -/
theorem fired_twice : ¬ ∀ (st : StoreDb) (ops : List Op), Inv st → (∀ op ∈ ops, Regular op) → OncePerOccurrence st ops := by
  intro h
  have hall := h (hourly ⟨seconds 18000, seconds (-18000)⟩) [.fire (envAt 3600) 10, .fire (envAt 3660) 10]
    ⟨by decide, by decide⟩ (by simp [Regular])
  have hfirings : firings (hourly ⟨seconds 18000, seconds (-18000)⟩) [.fire (envAt 3600) 10, .fire (envAt 3660) 10] =
      [(0, seconds 18000), (0, seconds 18000)] := by decide_cbv
  have honce := hall.once
  rw [hfirings] at honce
  exact absurd honce (by decide)

end Smara.Store.Schedules
