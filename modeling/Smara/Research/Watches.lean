import Smara.Lib.Machine
import Smara.Lib.Workers
import Smara.Research.Refreshes
import Mathlib.Algebra.Order.Group.Int

/-! # Research watches

A worker claims a watch for 30 minutes, reads the last snapshot, runs the research, and writes a refresh and the watch
back. The last statement does not ask whether the watch is still the worker's.

* `claimWatch`, `previousSnapshot`, `finishWatch`: the three transactions of a run.
* `TakenOver`: a worker has claimed the watch since.
* `watches`: the leases and the diffs of a run in which no worker finishes a watch that was taken over. -/

namespace Smara.Research.Watches

open Lib.Machine Lib.Table Lib.Workers Research.Refreshes
open TaskStore.Calls (strip)

/-! ### The tables -/

abbrev Time := ℤ

structure Watch where
  id : String
  topic : String
  workspace : String
  intervalSeconds : ℤ
  nextRunAt : Time
  enabled : Bool := true
  running : Bool := false
  leaseUntil : Time := 0
  lastRunAt : Option Time := none
  lastError : Option String := none
  createdAt : Time
  updatedAt : Time
  deriving DecidableEq

inductive Status
  | baseline
  | completed
  | failed
  deriving DecidableEq

structure Refresh where
  watchId : String
  status : Status
  startedAt : Time
  completedAt : Option Time
  sessionId : Option String
  snapshot : Snapshot
  diff : Diff
  error : Option String := none
  deriving DecidableEq

structure WatchDb where
  watches : List Watch := []
  refreshes : List Refresh := []
  deriving DecidableEq

section Store
variable (casefold : String → String)

/-- `add`, with an id that is drawn. -/
def add (id topic workspace : String) (seconds : ℤ) (baseline : Option Result) (now : Time) (db : WatchDb) : WatchDb :=
  let topic := strip topic
  if topic = "" ∨ 20000 < topic.length ∨ ¬ (3600 ≤ seconds ∧ seconds ≤ 31536000) ∨ ∃ w ∈ db.watches, w.id = id then db
  else
    { watches := db.watches ++ [{
        id, topic, workspace, intervalSeconds := seconds
        nextRunAt := if baseline.isSome then now + seconds else now
        createdAt := now, updatedAt := now }]
      refreshes := db.refreshes ++ (baseline.map fun r => {
        watchId := id, status := .baseline, startedAt := now, completedAt := some now, sessionId := r.sessionId
        snapshot := reviewSnapshot r, diff := compareRefreshes casefold none r : Refresh }).toList }

/-- `set_enabled`; `remove` is `set_enabled(watch_id, False)`. -/
def setEnabled (id : String) (enabled : Bool) (now : Time) (db : WatchDb) : WatchDb :=
  { db with watches := updateWhere (fun w => w.id = id) (fun w => { w with enabled, updatedAt := now }) db.watches }

def Claimable (force : Bool) (now : Time) (w : Watch) : Prop :=
  w.enabled = true ∧ ¬ (w.running = true ∧ now < w.leaseUntil) ∧ (force = true ∨ w.nextRunAt ≤ now)

instance (force : Bool) (now : Time) : DecidablePred (Claimable force now) := fun _ =>
  inferInstanceAs (Decidable (_ ∧ _))

def claimWatch (id : String) (force : Bool) (now : Time) (db : WatchDb) : Option Watch × WatchDb :=
  match lookup Watch.id id db.watches with
  | none => (none, db)
  | some w =>
    if Claimable force now w then
      (some w, { db with watches := updateWhere (fun w => w.id = id) (fun w =>
        { w with running := true, leaseUntil := now + 1800, updatedAt := now }) db.watches })
    else (none, db)

def previousSnapshot (id : String) (db : WatchDb) : Option Snapshot :=
  (firstBy (fun r r' => r'.startedAt < r.startedAt)
    (db.refreshes.filter fun r => r.watchId = id ∧ r.status ∈ [.completed, .baseline])).map Refresh.snapshot

/-- What comes of the runner: a result or an exception. -/
inductive Answer
  | returned (r : Result)
  | raised (error : String)

/-- The result that is compared and kept. -/
def Answer.result : Answer → Result
  | .returned r => r
  | .raised _ => { status := none }

/-- The refresh that a run stores. -/
def refreshOf (watchId : String) (previous : Option Snapshot) (startedAt now : Time) (a : Answer) : Refresh where
  watchId
  status := if a.result.status = some "completed" then .completed else .failed
  startedAt
  completedAt := some now
  sessionId := a.result.sessionId
  snapshot :=
    match a with
    | .returned r => { reviewSnapshot r with status := r.status, sessionId := r.sessionId }
    | .raised _ => {}
  diff := compareRefreshes casefold previous a.result
  error :=
    match a with
    | .returned r =>
      if r.status = some "completed" then none
      else
        let text := "; ".intercalate (r.unresolvedWork.take 8)
        some (if text = "" then "canonical research did not complete" else text)
    | .raised error => some error

def finishWatch (w : Watch) (refresh : Refresh) (now : Time) (db : WatchDb) : WatchDb :=
  { watches := updateWhere (fun w' => w'.id = w.id) (fun w' => { w' with
      running := false
      leaseUntil := 0
      nextRunAt := if refresh.error.isSome then now + min w.intervalSeconds 3600 else now + w.intervalSeconds
      lastRunAt := some now
      lastError := refresh.error
      updatedAt := now }) db.watches
    refreshes := db.refreshes ++ [refresh] }

end Store

/-! ### Runs -/

/-- A run has its watch, has read the last snapshot, or is done. -/
inductive Phase
  | claimed
  | reading (previous : Option Snapshot) (startedAt : Time)
  | finished
  deriving DecidableEq

/-- A worker, in the order of the claims, with its lease and the snapshot that was the last one at its claim. -/
structure Worker where
  watch : Watch
  lease : Time
  last : Option Snapshot
  phase : Phase := .claimed
  deriving DecidableEq

/-- The database, the workers, and the readings of the clock, the latest first. -/
structure System where
  db : WatchDb := {}
  workers : List Worker := []
  clock : List Time := []

inductive Event
  | tick (t : Time)
  | add (id topic workspace : String) (seconds : ℤ) (baseline : Option Result) (now : Time)
  | setEnabled (id : String) (enabled : Bool) (now : Time)
  /-- A claim, at a time that was read before. -/
  | claim (id : String) (force : Bool) (now : Time)
  | readPrevious (k : ℕ) (startedAt : Time)
  | finish (k : ℕ) (a : Answer) (now : Time)

def setPhase (k : ℕ) (w : Worker) (phase : Phase) (sys : System) : System :=
  { sys with workers := sys.workers.set k { w with phase } }

section Step
variable (casefold : String → String)

def step (sys : System) : Event → System
  | .tick t => { sys with clock := t :: sys.clock }
  | .add id topic workspace seconds baseline now =>
    { sys with db := add casefold id topic workspace seconds baseline now sys.db }
  | .setEnabled id enabled now => { sys with db := setEnabled id enabled now sys.db }
  | .claim id force now =>
    if now ∈ sys.clock then
      match claimWatch id force now sys.db with
      | (some w, db) =>
        { sys with db, workers := sys.workers ++ [{ watch := w, lease := now + 1800, last := previousSnapshot id sys.db }] }
      | (none, _) => sys
    else sys
  | .readPrevious k startedAt =>
    match sys.workers[k]? with
    | some w =>
      match w.phase with
      | .claimed => setPhase k w (.reading (previousSnapshot w.watch.id sys.db) startedAt) sys
      | _ => sys
    | none => sys
  | .finish k a now =>
    match sys.workers[k]? with
    | some w =>
      match w.phase with
      | .reading previous startedAt =>
        { setPhase k w .finished sys with
          db := finishWatch w.watch (refreshOf casefold w.watch.id previous startedAt now a) now sys.db }
      | _ => sys
    | none => sys

end Step

/-- Another worker has claimed the watch since. -/
def TakenOver (sys : System) (k : ℕ) (w : Worker) : Prop :=
  ∃ w' ∈ sys.workers.drop (k + 1), w'.watch.id = w.watch.id

instance (sys : System) (k : ℕ) (w : Worker) : Decidable (TakenOver sys k w) :=
  inferInstanceAs (Decidable (∃ _ ∈ _, _))

def Finishes (sys : System) (k : ℕ) (w : Worker) : Prop :=
  sys.workers[k]? = some w ∧ ∃ previous startedAt, w.phase = .reading previous startedAt

/-- The steps of the condition: no worker finishes a watch that was taken over, and the clock is not set back. -/
def Sound (sys : System) : Event → Prop
  | .tick t => ∀ t' ∈ sys.clock, t' ≤ t
  | .finish k _ _ => ∀ w, Finishes sys k w → ¬ TakenOver sys k w
  | _ => True

/-- A worker that finishes a watch that was taken over leaves it as it is. -/
def Keeps (casefold : String → String) (sys : System) (e : Event) : Prop :=
  match e with
  | .finish k _ _ => ∀ w, Finishes sys k w → TakenOver sys k w →
      ∀ r ∈ sys.db.watches, ∀ r' ∈ (step casefold sys e).db.watches, r'.id = r.id → r.id = w.watch.id →
        r'.running = r.running ∧ r'.leaseUntil = r.leaseUntil ∧ r'.nextRunAt = r.nextRunAt
  | _ => True

/-- A worker that finishes stores the difference to the snapshot that was the last one at its claim. -/
def Diffs (casefold : String → String) (sys : System) (e : Event) : Prop :=
  match e with
  | .finish k a _ => ∀ w, Finishes sys k w → ∃ refresh, (step casefold sys e).db.refreshes = sys.db.refreshes ++ [refresh] ∧
      refresh.watchId = w.watch.id ∧ refresh.diff = compareRefreshes casefold w.last a.result
  | _ => True

/-- No two workers hold a lease on one watch that has not expired. -/
def OneOwner (sys : System) : Prop :=
  ∀ (i j : ℕ) (w w' : Worker), i ≠ j → sys.workers[i]? = some w → sys.workers[j]? = some w' → w.watch.id = w'.watch.id →
    w.phase ≠ .finished → w'.phase ≠ .finished → ∀ now ∈ sys.clock.head?, w.lease ≤ now ∨ w'.lease ≤ now

structure Inv (sys : System) : Prop where
  keyed : Keyed Watch.id sys.db.watches
  clock : sys.clock.Pairwise (· ≥ ·)
  known : ∀ (k : ℕ) (w : Worker), sys.workers[k]? = some w → ∃ r ∈ sys.db.watches, r.id = w.watch.id
  running : ∀ (k : ℕ) (w : Worker), sys.workers[k]? = some w → ¬ TakenOver sys k w → w.phase ≠ .finished →
    ∀ r ∈ sys.db.watches, r.id = w.watch.id → r.running = true ∧ r.leaseUntil = w.lease
  expired : ∀ (k : ℕ) (w : Worker), sys.workers[k]? = some w → TakenOver sys k w → w.phase ≠ .finished → ∃ t ∈ sys.clock, w.lease ≤ t
  last : ∀ (k : ℕ) (w : Worker), sys.workers[k]? = some w → ¬ TakenOver sys k w → w.phase ≠ .finished →
    previousSnapshot w.watch.id sys.db = w.last ∧ ∀ (previous : Option Snapshot) (startedAt : Time), w.phase = .reading previous startedAt →
      previous = w.last

section Proofs
variable {casefold : String → String} {sys : System}

theorem takenOver_iff {k : ℕ} {w : Worker} :
    TakenOver sys k w ↔ ∃ j w', k < j ∧ sys.workers[j]? = some w' ∧ w'.watch.id = w.watch.id := by
  constructor
  · rintro ⟨w', hw', hid⟩
    obtain ⟨i, hi⟩ := List.getElem?_of_mem hw'
    rw [List.getElem?_drop] at hi
    exact ⟨k + 1 + i, w', by omega, hi, hid⟩
  · rintro ⟨j, w', hlt, hw', hid⟩
    refine ⟨w', List.mem_of_getElem? (i := j - (k + 1)) ?_, hid⟩
    rw [List.getElem?_drop]
    have hsum : k + 1 + (j - (k + 1)) = j := by omega
    rw [hsum]
    exact hw'

theorem inv_start : Inv {} := by
  refine ⟨List.nodup_nil, List.Pairwise.nil, ?_, ?_, ?_, ?_⟩
  · intro k w hw
    simp at hw
  · intro k w hw
    simp at hw
  · intro k w hw
    simp at hw
  · intro k w hw
    simp at hw

/-! ### Snapshots -/

theorem previousSnapshot_append {id : String} {db : WatchDb} {watches : List Watch} {refreshes : List Refresh}
    (h : ∀ r ∈ refreshes, r.watchId ≠ id) :
    previousSnapshot id ⟨watches, db.refreshes ++ refreshes⟩ = previousSnapshot id db := by
  have hnil : refreshes.filter (fun r => r.watchId = id ∧ r.status ∈ [.completed, .baseline]) = [] :=
    List.filter_eq_nil_iff.mpr fun r hr => by simp [h r hr]
  unfold previousSnapshot
  simp only [List.filter_append, hnil, List.append_nil]

/-! ### Steps -/

theorem Inv.quiet (hinv : Inv sys) {db : WatchDb} (hkeyed : Keyed Watch.id db.watches)
    (hrows : ∀ r' ∈ db.watches, (∃ r ∈ sys.db.watches, r.id = r'.id ∧ r.running = r'.running ∧ r.leaseUntil = r'.leaseUntil) ∨
      ∀ r ∈ sys.db.watches, r.id ≠ r'.id)
    (hknown : ∀ r ∈ sys.db.watches, ∃ r' ∈ db.watches, r'.id = r.id)
    (hsnapshots : ∀ id, (∃ r ∈ sys.db.watches, r.id = id) → previousSnapshot id db = previousSnapshot id sys.db) :
    Inv { sys with db } := by
  refine ⟨hkeyed, hinv.clock, fun k w hw => ?_, fun k w hw hlast hopen r' hr' hid => ?_, hinv.expired,
    fun k w hw hlast hopen => ?_⟩
  · obtain ⟨r, hr, hid⟩ := hinv.known k w hw
    obtain ⟨r', hr', hid'⟩ := hknown r hr
    exact ⟨r', hr', hid'.trans hid⟩
  · rcases hrows r' hr' with ⟨r, hr, hid', hrunning, hlease⟩ | hnew
    · rw [← hrunning, ← hlease]
      exact hinv.running k w hw hlast hopen r hr (hid'.trans hid)
    · obtain ⟨r, hr, hid'⟩ := hinv.known k w hw
      exact absurd (hid'.trans hid.symm) (hnew r hr)
  · rw [hsnapshots _ (hinv.known k w hw)]
    exact hinv.last k w hw hlast hopen

theorem map_id_setEnabled {id : String} {enabled : Bool} {now : Time} {db : WatchDb} :
    (setEnabled id enabled now db).watches.map Watch.id = db.watches.map Watch.id := by
  unfold setEnabled
  exact map_updateWhere fun _ _ => rfl

theorem map_id_finishWatch {w : Watch} {refresh : Refresh} {now : Time} {db : WatchDb} :
    (finishWatch w refresh now db).watches.map Watch.id = db.watches.map Watch.id := by
  unfold finishWatch
  exact map_updateWhere fun _ _ => rfl

theorem Inv.add (hinv : Inv sys) (id topic workspace : String) (seconds : ℤ) (baseline : Option Result) (now : Time) :
    Inv { sys with db := add casefold id topic workspace seconds baseline now sys.db } := by
  unfold Watches.add
  simp only
  by_cases hrefused : strip topic = "" ∨ 20000 < (strip topic).length ∨ ¬ (3600 ≤ seconds ∧ seconds ≤ 31536000) ∨
      ∃ w ∈ sys.db.watches, w.id = id
  · rw [if_pos hrefused]
    exact hinv
  · rw [if_neg hrefused]
    have hnew : ∀ r ∈ sys.db.watches, r.id ≠ id := fun r hr hid => hrefused (Or.inr (Or.inr (Or.inr ⟨r, hr, hid⟩)))
    refine hinv.quiet ?_ (fun r' hr' => ?_) (fun r hr => ⟨r, List.mem_append_left _ hr, rfl⟩) fun id' hid' => ?_
    · refine keyed_append.mpr ⟨hinv.keyed, List.nodup_singleton _, fun r hr r' hr' => ?_⟩
      rw [List.mem_singleton.mp hr']
      exact hnew r hr
    · rcases List.mem_append.mp hr' with hr' | hr'
      · exact Or.inl ⟨r', hr', rfl, rfl, rfl⟩
      · rw [List.mem_singleton.mp hr']
        exact Or.inr hnew
    · obtain ⟨r, hr, rfl⟩ := hid'
      refine previousSnapshot_append fun x hx => ?_
      cases baseline with
      | none => cases hx
      | some b =>
        rw [List.mem_singleton.mp hx]
        exact (hnew r hr).symm

theorem Inv.setEnabled (hinv : Inv sys) (id : String) (enabled : Bool) (now : Time) :
    Inv { sys with db := setEnabled id enabled now sys.db } := by
  refine hinv.quiet ?_ (fun r' hr' => ?_) (fun r hr => ?_) fun id' _ => rfl
  · rw [Keyed, map_id_setEnabled]
    exact hinv.keyed
  · obtain ⟨r, hr, rfl⟩ := mem_updateWhere.mp hr'
    refine Or.inl ⟨r, hr, ?_⟩
    split_ifs
    · exact ⟨rfl, rfl, rfl⟩
    · exact ⟨rfl, rfl, rfl⟩
  · rw [← List.mem_map, map_id_setEnabled, List.mem_map]
    exact ⟨r, hr, rfl⟩

/-! ### Claims -/

theorem claimWatch_ok {id : String} {force : Bool} {now : Time} {db db' : WatchDb} {w : Watch}
    (h : claimWatch id force now db = (some w, db')) :
    w ∈ db.watches ∧ w.id = id ∧ Claimable force now w ∧ db' = { db with
      watches := updateWhere (fun w => w.id = id) (fun w =>
        { w with running := true, leaseUntil := now + 1800, updatedAt := now }) db.watches } := by
  unfold claimWatch at h
  split at h
  · simp at h
  · next w' hw' =>
    split_ifs at h with hclaim
    · obtain ⟨hw, hdb⟩ := Prod.mk.inj h
      obtain rfl := Option.some.inj hw
      exact ⟨mem_of_lookup hw', key_of_lookup hw', hclaim, hdb.symm⟩
    · simp at h

theorem takenOver_concat {k : ℕ} {w w' : Worker} {db : WatchDb} (hk : k < sys.workers.length) :
    TakenOver { sys with db, workers := sys.workers ++ [w'] } k w ↔
      TakenOver sys k w ∨ w'.watch.id = w.watch.id := by
  rw [takenOver_iff, takenOver_iff]
  constructor
  · rintro ⟨j, x, hlt, hx, hid⟩
    rcases getElem?_concat_iff.mp hx with hx | ⟨rfl, rfl⟩
    · exact Or.inl ⟨j, x, hlt, hx, hid⟩
    · exact Or.inr hid
  · rintro (⟨j, x, hlt, hx, hid⟩ | hid)
    · exact ⟨j, x, hlt, getElem?_concat_iff.mpr (Or.inl hx), hid⟩
    · exact ⟨sys.workers.length, w', hk, getElem?_concat_iff.mpr (Or.inr ⟨rfl, rfl⟩), hid⟩

theorem not_takenOver_length {w w' : Worker} {db : WatchDb} :
    ¬ TakenOver { sys with db, workers := sys.workers ++ [w'] } sys.workers.length w := by
  rw [takenOver_iff]
  rintro ⟨j, x, hlt, hx, -⟩
  have hj := (List.getElem?_eq_some_iff.mp hx).1
  simp only [List.length_append, List.length_singleton] at hj
  omega

theorem Inv.claim (hinv : Inv sys) {id : String} {force : Bool} {now : Time} {db : WatchDb} {w : Watch}
    (hnow : now ∈ sys.clock) (h : claimWatch id force now sys.db = (some w, db)) :
    Inv { sys with db, workers := sys.workers ++ [{ watch := w, lease := now + 1800, last := previousSnapshot id sys.db }] } := by
  obtain ⟨hw, rfl, ⟨-, hfree, -⟩, rfl⟩ := claimWatch_ok h
  have hids : ∀ x : Worker, (∃ r ∈ sys.db.watches, r.id = x.watch.id) → ∃ r' ∈ updateWhere (fun w' => w'.id = w.id)
      (fun w' : Watch => { w' with running := true, leaseUntil := now + 1800, updatedAt := now }) sys.db.watches,
        r'.id = x.watch.id := by
    rintro x ⟨r, hr, hid⟩
    refine ⟨_, mem_updateWhere.mpr ⟨r, hr, rfl⟩, ?_⟩
    split_ifs
    · exact hid
    · exact hid
  refine ⟨?_, hinv.clock, fun k x hx => ?_,
    fun k x hx hlast hopen r' hr' hid => ?_, fun k x hx htaken hopen => ?_, fun k x hx hlast hopen => ?_⟩
  · rw [Keyed, map_updateWhere]
    · exact hinv.keyed
    · exact fun _ _ => rfl
  · rcases getElem?_concat_iff.mp hx with hx | ⟨rfl, rfl⟩
    · exact hids x (hinv.known k x hx)
    · exact hids _ ⟨w, hw, rfl⟩
  · obtain ⟨r, hr, rfl⟩ := mem_updateWhere.mp hr'
    rcases getElem?_concat_iff.mp hx with hx | ⟨rfl, rfl⟩
    · obtain ⟨hold, hother⟩ := not_or.mp (mt (takenOver_concat (List.getElem?_eq_some_iff.mp hx).1).mpr hlast)
      have hid' : r.id = x.watch.id := by
        split_ifs at hid
        · exact hid
        · exact hid
      have hne : r.id ≠ w.id := fun hrw => hother (hrw.symm.trans hid')
      rw [if_neg hne]
      exact hinv.running k x hx hold hopen r hr hid'
    · have hid' : r.id = w.id := by
        split_ifs at hid with hrw
        · exact hrw
        · exact hid
      rw [if_pos hid']
      exact ⟨rfl, rfl⟩
  · rcases getElem?_concat_iff.mp hx with hx | ⟨rfl, rfl⟩
    · rcases (takenOver_concat (List.getElem?_eq_some_iff.mp hx).1).mp htaken with hold | hid
      · exact hinv.expired k x hx hold hopen
      · by_cases hold : TakenOver sys k x
        · exact hinv.expired k x hx hold hopen
        -- the row that is claimed is running for this worker, and its lease has run out
        · obtain ⟨hrunning, hlease⟩ := hinv.running k x hx hold hopen w hw hid
          refine ⟨now, hnow, ?_⟩
          rw [← hlease]
          exact not_lt.mp fun hlt => hfree ⟨hrunning, hlt⟩
    · exact absurd htaken not_takenOver_length
  · rcases getElem?_concat_iff.mp hx with hx | ⟨rfl, rfl⟩
    · have hold := (not_or.mp (mt (takenOver_concat (List.getElem?_eq_some_iff.mp hx).1).mpr hlast)).1
      exact hinv.last k x hx hold hopen
    · refine ⟨rfl, fun previous startedAt hphase => ?_⟩
      simp at hphase

/-! ### Workers that go on -/

theorem takenOver_setPhase {j k : ℕ} {w x : Worker} {phase : Phase} {db : WatchDb} (hw : sys.workers[k]? = some w) :
    TakenOver { setPhase k w phase sys with db } j x ↔ TakenOver sys j x := by
  rw [takenOver_iff, takenOver_iff]
  constructor
  · rintro ⟨i, y, hlt, hy, hid⟩
    rcases (getElem?_set_iff hw).mp hy with ⟨rfl, rfl⟩ | ⟨-, hy⟩
    · exact ⟨i, w, hlt, hw, hid⟩
    · exact ⟨i, y, hlt, hy, hid⟩
  · rintro ⟨i, y, hlt, hy, hid⟩
    by_cases hik : i = k
    · subst hik
      obtain rfl := Option.some.inj (hw.symm.trans hy)
      exact ⟨i, _, hlt, (getElem?_set_iff hw).mpr (Or.inl ⟨rfl, rfl⟩), hid⟩
    · exact ⟨i, y, hlt, (getElem?_set_iff hw).mpr (Or.inr ⟨hik, hy⟩), hid⟩

theorem eq_of_not_takenOver {j k : ℕ} {w x : Worker} (hw : sys.workers[k]? = some w) (hx : sys.workers[j]? = some x)
    (hid : x.watch.id = w.watch.id) (hk : ¬ TakenOver sys k w) (hj : ¬ TakenOver sys j x) : j = k := by
  rw [takenOver_iff] at hk hj
  have hkj : ¬ k < j := fun hlt => hk ⟨j, x, hlt, hx, hid⟩
  have hjk : ¬ j < k := fun hlt => hj ⟨k, w, hlt, hw, hid.symm⟩
  omega

theorem Inv.readPrevious (hinv : Inv sys) {k : ℕ} {w : Worker} {startedAt : Time} (hw : sys.workers[k]? = some w)
    (hphase : w.phase = .claimed) : Inv (setPhase k w (.reading (previousSnapshot w.watch.id sys.db) startedAt) sys) := by
  have hopen' : w.phase ≠ .finished := by simp [hphase]
  refine ⟨hinv.keyed, hinv.clock, fun j x hx => ?_, fun j x hx hlast hopen => ?_, fun j x hx htaken hopen => ?_,
    fun j x hx hlast hopen => ?_⟩
  · rcases (getElem?_set_iff hw).mp hx with ⟨rfl, rfl⟩ | ⟨-, hx⟩
    · exact hinv.known j w hw
    · exact hinv.known j x hx
  · rw [takenOver_setPhase hw] at hlast
    rcases (getElem?_set_iff hw).mp hx with ⟨rfl, rfl⟩ | ⟨-, hx⟩
    · exact hinv.running j w hw hlast hopen'
    · exact hinv.running j x hx hlast hopen
  · rw [takenOver_setPhase hw] at htaken
    rcases (getElem?_set_iff hw).mp hx with ⟨rfl, rfl⟩ | ⟨-, hx⟩
    · exact hinv.expired j w hw htaken hopen'
    · exact hinv.expired j x hx htaken hopen
  · rw [takenOver_setPhase hw] at hlast
    rcases (getElem?_set_iff hw).mp hx with ⟨rfl, rfl⟩ | ⟨-, hx⟩
    · have hold := (hinv.last j w hw hlast hopen').1
      refine ⟨hold, fun previous startedAt' hreading => ?_⟩
      obtain ⟨rfl, -⟩ := Phase.reading.inj hreading
      exact hold
    · exact hinv.last j x hx hlast hopen

theorem Inv.finish (hinv : Inv sys) {k : ℕ} {w : Worker} {refresh : Refresh} {now : Time}
    (hw : sys.workers[k]? = some w) (hown : ¬ TakenOver sys k w) (hrefresh : refresh.watchId = w.watch.id) :
    Inv { setPhase k w .finished sys with db := finishWatch w.watch refresh now sys.db } := by
  have hother : ∀ (j : ℕ) (x : Worker), sys.workers[j]? = some x → j ≠ k → ¬ TakenOver sys j x →
      x.watch.id ≠ w.watch.id := fun j x hx hne hlast hid => hne (eq_of_not_takenOver hw hx hid hown hlast)
  refine ⟨?_, hinv.clock, fun j x hx => ?_, fun j x hx hlast hopen r' hr' hid => ?_, fun j x hx htaken hopen => ?_,
    fun j x hx hlast hopen => ?_⟩
  · rw [Keyed, map_id_finishWatch]
    exact hinv.keyed
  · obtain ⟨r, hr, hid⟩ : ∃ r ∈ sys.db.watches, r.id = x.watch.id := by
      rcases (getElem?_set_iff hw).mp hx with ⟨rfl, rfl⟩ | ⟨-, hx⟩
      · exact hinv.known j w hw
      · exact hinv.known j x hx
    rw [← List.mem_map, map_id_finishWatch, List.mem_map]
    exact ⟨r, hr, hid⟩
  · rw [takenOver_setPhase hw] at hlast
    rcases (getElem?_set_iff hw).mp hx with ⟨rfl, rfl⟩ | ⟨hne, hx⟩
    · exact absurd rfl hopen
    · obtain ⟨r, hr, rfl⟩ := mem_updateWhere.mp hr'
      have hrw : r.id ≠ w.watch.id := by
        intro hrw
        rw [if_pos hrw] at hid
        exact hother j x hx hne hlast (hid.symm.trans hrw)
      rw [if_neg hrw] at hid ⊢
      exact hinv.running j x hx hlast hopen r hr hid
  · rw [takenOver_setPhase hw] at htaken
    rcases (getElem?_set_iff hw).mp hx with ⟨rfl, rfl⟩ | ⟨-, hx⟩
    · exact absurd rfl hopen
    · exact hinv.expired j x hx htaken hopen
  · rw [takenOver_setPhase hw] at hlast
    rcases (getElem?_set_iff hw).mp hx with ⟨rfl, rfl⟩ | ⟨hne, hx⟩
    · exact absurd rfl hopen
    · have hsame : previousSnapshot x.watch.id (finishWatch w.watch refresh now sys.db) =
          previousSnapshot x.watch.id sys.db := by
        refine previousSnapshot_append fun r hr => ?_
        rw [List.mem_singleton.mp hr, hrefresh]
        exact (hother j x hx hne hlast).symm
      rw [hsame]
      exact hinv.last j x hx hlast hopen

theorem Inv.tick (hinv : Inv sys) {t : Time} (ht : ∀ t' ∈ sys.clock, t' ≤ t) : Inv { sys with clock := t :: sys.clock } := by
  refine ⟨hinv.keyed, List.Pairwise.cons ht hinv.clock, hinv.known, hinv.running, fun k w hw htaken hopen => ?_, hinv.last⟩
  obtain ⟨t', ht', hle⟩ := hinv.expired k w hw htaken hopen
  exact ⟨t', List.mem_cons_of_mem _ ht', hle⟩

/-- **Every step of the condition keeps the invariant.** -/
theorem inv_step (sys : System) (e : Event) (hinv : Inv sys) (h : Sound sys e) : Inv (step casefold sys e) := by
  cases e with
  | tick t => exact hinv.tick h
  | add id topic workspace seconds baseline now => exact hinv.add id topic workspace seconds baseline now
  | setEnabled id enabled now => exact hinv.setEnabled id enabled now
  | claim id force now =>
    simp only [step]
    split_ifs with hnow
    · split
      · next w db hclaim => exact hinv.claim hnow hclaim
      · exact hinv
    · exact hinv
  | readPrevious k startedAt =>
    simp only [step]
    split
    · next w hw =>
      split
      · next hphase => exact hinv.readPrevious hw hphase
      · exact hinv
    · exact hinv
  | finish k a now =>
    simp only [step]
    split
    · next w hw =>
      split
      · next previous startedAt hphase => exact hinv.finish hw (h w ⟨hw, previous, startedAt, hphase⟩) rfl
      · exact hinv
    · exact hinv

theorem Inv.oneOwner (hinv : Inv sys) : OneOwner sys := by
  intro i j w w' hne hw hw' hid hopen hopen' now hnow
  have hlate : ∀ t ∈ sys.clock, t ≤ now := by
    obtain ⟨rest, hrest⟩ : ∃ rest, sys.clock = now :: rest := List.head?_eq_some_iff.mp hnow
    have hclock := hinv.clock
    rw [hrest] at hclock ⊢
    intro t ht
    rcases List.mem_cons.mp ht with rfl | ht
    · exact le_refl t
    · exact List.rel_of_pairwise_cons hclock ht
  by_cases htaken : TakenOver sys i w
  · obtain ⟨t, ht, hle⟩ := hinv.expired i w hw htaken hopen
    exact Or.inl (hle.trans (hlate t ht))
  · by_cases htaken' : TakenOver sys j w'
    · obtain ⟨t, ht, hle⟩ := hinv.expired j w' hw' htaken' hopen'
      exact Or.inr (hle.trans (hlate t ht))
    · exact absurd (eq_of_not_takenOver hw' hw hid htaken' htaken) hne

theorem keeps_of_sound {e : Event} (h : Sound sys e) : Keeps casefold sys e := by
  cases e with
  | finish k a now =>
    intro w hfinishes htaken
    exact absurd htaken (h w hfinishes)
  | _ => trivial

theorem Inv.diffs (hinv : Inv sys) {e : Event} (h : Sound sys e) : Diffs casefold sys e := by
  cases e with
  | finish k a now =>
    intro w hfinishes
    obtain ⟨hw, previous, startedAt, hphase⟩ := hfinishes
    have hown : ¬ TakenOver sys k w := h w ⟨hw, previous, startedAt, hphase⟩
    have hopen : w.phase ≠ .finished := by simp [hphase]
    obtain rfl := (hinv.last k w hw hown hopen).2 previous startedAt hphase
    refine ⟨refreshOf casefold w.watch.id w.last startedAt now a, ?_, rfl, rfl⟩
    simp only [step, hw, hphase]
    rfl
  | _ => trivial

end Proofs

/-- **A watch has one owner** in every run in which no worker finishes a watch that was taken over and the clock is not
set back: what was taken over is left, no two leases run at a time, and each diff is to the snapshot at the claim. -/
theorem watches (casefold : String → String) {events : List Event} (h : Along (step casefold) Sound {} events) :
    (∀ pre, pre <+: events → OneOwner (run (step casefold) {} pre)) ∧
      Along (step casefold) (Keeps casefold) {} events ∧ Along (step casefold) (Diffs casefold) {} events := by
  refine ⟨?_, h.mono fun s e hs => keeps_of_sound hs,
    along_of_inv inv_step (fun s e hinv hs => hinv.diffs hs) inv_start h⟩
  rintro pre ⟨post, rfl⟩
  have hpre : Along (step casefold) Sound {} pre := (along_append.mp h).1
  exact (inv_run inv_step inv_start hpre).oneOwner

/-- A run that takes longer than its lease, and a second one that takes the watch over. -/
def overlong : List Event :=
  [.tick 0, .add "w" "topic" "default" 86400 none 0, .claim "w" false 0, .readPrevious 0 0, .tick 1801,
    .claim "w" false 1801, .readPrevious 1 1801]

/-- The worker of the first run. -/
def overtaken : Worker where
  watch := {
    id := "w", topic := "topic", workspace := "default", intervalSeconds := 86400, nextRunAt := 0
    createdAt := 0, updatedAt := 0 }
  lease := 1800
  last := none
  phase := .reading none 0

/-- The second worker finishes, and the first one never does. -/
theorem watches_overlong : OneOwner (run (step id) {} (overlong ++ [.finish 1 (.raised "no network") 1900])) := by
  have hearly : Along (step id) Sound {} overlong := by
    refine ⟨?_, trivial, trivial, trivial, ?_, trivial, trivial, trivial⟩
    · intro t ht
      simp at ht
    · have hclock : ∀ t ∈ [(0 : Time)], t ≤ 1801 := by simp
      exact hclock
  have hnone : (run (step id) {} overlong).workers.drop 2 = [] := by decide
  have hlate : Sound (run (step id) {} overlong) (.finish 1 (.raised "no network") 1900) := by
    rintro w - ⟨w', hw', -⟩
    rw [hnone] at hw'
    simp at hw'
  have h : Along (step id) Sound {} (overlong ++ [.finish 1 (.raised "no network") 1900]) :=
    along_append.mpr ⟨hearly, hlate, trivial⟩
  exact (watches id h).1 _ (List.prefix_refl _)

/-- The first worker finishes, and the watch that the second one has is free. -/
theorem not_watches : ¬ ∀ (casefold : String → String) (events : List Event),
    (∀ pre, pre <+: events → OneOwner (run (step casefold) {} pre)) ∧
      Along (step casefold) (Keeps casefold) {} events ∧ Along (step casefold) (Diffs casefold) {} events := by
  intro h
  have hfinish := (along_append.mp (h id (overlong ++ [.finish 0 (.raised "no network") 1810])).2.1).2.1
  have hw : (run (step id) {} overlong).workers[0]? = some overtaken := by decide
  have htaken : TakenOver (run (step id) {} overlong) 0 overtaken := by decide
  have hrow : ∃ r ∈ (run (step id) {} overlong).db.watches, r.id = "w" ∧ r.running = true := by
    decide
  have hrow' : ∃ r ∈ (step id (run (step id) {} overlong) (.finish 0 (.raised "no network") 1810)).db.watches,
      r.id = "w" ∧ r.running = false := by
    decide
  obtain ⟨r, hr, hid, hrunning⟩ := hrow
  obtain ⟨r', hr', hid', hrunning'⟩ := hrow'
  have hkept := (hfinish _ ⟨hw, none, 0, rfl⟩ htaken r hr r' hr' (hid'.trans hid.symm) hid).1
  rw [hrunning, hrunning'] at hkept
  exact Bool.false_ne_true hkept

end Smara.Research.Watches
