import Smara.Lib.Machine
import Smara.Lib.Page
import Smara.Lib.Workers
import Smara.TaskStore.Calls
import Mathlib.Algebra.Order.Group.Int

/-! # The local scheduler

A tick claims the schedules that are due, in one transaction, and then runs their callbacks one after the other; after
each of them it writes the schedule back. Any number of processes tick.

* `add`, `setEnabled`, `remove`, `dueRows`, `claimRows`, `recordRow`: the statements of `LocalScheduleStore`.
* `Tick`, `Event`, `step`: a tick is cut where it leaves the database.
* `scheduler`: what the claims of a run are like if it has no step that is not `Sound`. -/

namespace Smara.Desktop.Scheduler

open Lib.Machine Lib.Page Lib.Table Lib.Workers
open TaskStore.Calls (strip)
open TaskStore.Lifecycle (clip)

/-! ### The table -/

abbrev Time := ℤ

structure Schedule where
  id : String
  name : String
  payload : String
  intervalSeconds : ℤ
  nextRunAt : Time
  enabled : Bool := true
  running : Bool := false
  attempts : ℕ := 0
  lastError : Option String := none
  updatedAt : Time
  deriving DecidableEq

/-- The checks of `add`. -/
def Valid (name : String) (intervalSeconds : ℤ) : Prop :=
  strip name ≠ "" ∧ 5 ≤ intervalSeconds ∧ intervalSeconds ≤ 31536000

instance (name : String) (intervalSeconds : ℤ) : Decidable (Valid name intervalSeconds) :=
  inferInstanceAs (Decidable (_ ∧ _))

/-- `add`; a call with an id that is there, or that fails its checks, raises. -/
def add (id name payload : String) (intervalSeconds : ℤ) (nextRunAt : Option Time) (time : Time)
    (rows : List Schedule) : List Schedule :=
  if Valid name intervalSeconds ∧ ∀ r ∈ rows, r.id ≠ id then
    rows ++ [{ id, name := clip 160 name, payload, intervalSeconds, nextRunAt := nextRunAt.getD time, updatedAt := time }]
  else rows

def setEnabled (id : String) (enabled : Bool) (time : Time) : List Schedule → List Schedule :=
  updateWhere (fun r => r.id = id) fun r => { r with enabled, running := false, updatedAt := time }

def remove (id : String) (rows : List Schedule) : List Schedule := deleteWhere (fun r => r.id = id) rows

def Due (now : Time) (r : Schedule) : Prop := r.enabled = true ∧ r.nextRunAt ≤ now

instance (now : Time) : DecidablePred (Due now) := fun _ => inferInstanceAs (Decidable (_ ∧ _))

def clampLimit (limit : ℤ) : ℕ := (max 1 (min limit 100)).toNat

def dueRows (now : Time) (limit : ℤ) (rows : List Schedule) : List Schedule :=
  page (fun r => Due now r ∧ r.running = false) (fun r r' => decide (r.nextRunAt ≤ r'.nextRunAt)) (clampLimit limit) rows

/-- The `UPDATE` for each of these rows. -/
def claimRows (now : Time) (claimed : List Schedule) (rows : List Schedule) : List Schedule :=
  updateWhere (fun r => r.id ∈ claimed.map Schedule.id)
    (fun r => { r with running := true, attempts := r.attempts + 1, updatedAt := now }) rows

/-- The `UPDATE` after a callback; `now` is the time at which the tick has started. -/
def recordRow (now time : Time) (item : Schedule) (error : Option String) : List Schedule → List Schedule :=
  updateWhere (fun r => r.id = item.id) fun r => { r with
    running := false
    nextRunAt := now + match error with
      | none => item.intervalSeconds
      | some _ => min item.intervalSeconds 300
    lastError := error.map (clip 1000)
    updatedAt := time }

/-! ### Ticks -/

/-- The first of the items of a tick waits, is in its callback, or has returned from it. -/
inductive Phase
  | waiting
  | calling
  | returned (error : Option String)
  deriving DecidableEq

/-- A tick in a live process or in a dead one, with the items that are still to be done. -/
structure Tick where
  now : Time
  items : List Schedule
  phase : Phase := .waiting
  live : Bool := true
  completed : List (Schedule × Option String) := []
  deriving DecidableEq

structure System where
  rows : List Schedule := []
  ticks : List Tick := []
  deriving DecidableEq

inductive Event
  | add (id name payload : String) (intervalSeconds : ℤ) (nextRunAt : Option Time) (time : Time)
  | setEnabled (id : String) (enabled : Bool) (time : Time)
  | remove (id : String)
  /-- A tick starts, with its transaction. -/
  | claim (now : Time) (limit : ℤ)
  /-- The callback of its first item starts. -/
  | call (k : ℕ)
  /-- The callback returns or raises. -/
  | reply (k : ℕ) (error : Option String)
  /-- The schedule is written back; `raised` is what the first attempt has raised after a callback that did not. -/
  | record (k : ℕ) (raised : Option String) (time : Time)
  /-- The process of the tick dies. -/
  | die (k : ℕ)

def onTick (k : ℕ) (f : Tick → System → System) (sys : System) : System :=
  match sys.ticks[k]? with
  | some t => if t.live then f t sys else sys
  | none => sys

def setTick (k : ℕ) (t : Tick) (sys : System) : System := { sys with ticks := sys.ticks.set k t }

/-- The first item of a tick is written back. -/
def recordItem (k : ℕ) (raised : Option String) (time : Time) (t : Tick) (sys : System) : System :=
  match t.phase, t.items with
  | .returned error, item :: items =>
    let error := error.or raised
    { setTick k { t with phase := .waiting, items, completed := t.completed ++ [(item, error)] } sys with
      rows := recordRow t.now time item error sys.rows }
  | _, _ => sys

def step (sys : System) : Event → System
  | .add id name payload intervalSeconds nextRunAt time =>
    { sys with rows := add id name payload intervalSeconds nextRunAt time sys.rows }
  | .setEnabled id enabled time => { sys with rows := setEnabled id enabled time sys.rows }
  | .remove id => { sys with rows := remove id sys.rows }
  | .claim now limit =>
    let claimed := dueRows now limit sys.rows
    { rows := claimRows now claimed sys.rows, ticks := sys.ticks ++ [{ now, items := claimed }] }
  | .call k => onTick k (fun t sys =>
      if t.phase = .waiting ∧ t.items ≠ [] then setTick k { t with phase := .calling } sys else sys) sys
  | .reply k error => onTick k (fun t sys =>
      if t.phase = .calling then setTick k { t with phase := .returned error } sys else sys) sys
  | .record k raised time => onTick k (recordItem k raised time) sys
  | .die k => onTick k (fun t sys => setTick k { t with live := false } sys) sys

/-! ### What is held -/

def held (t : Tick) : List String := if t.live then t.items.map Schedule.id else []

def inCallback (t : Tick) : List String :=
  if t.live ∧ t.phase = .calling then (t.items.take 1).map Schedule.id else []

def System.held (sys : System) : List String := sys.ticks.flatMap Scheduler.held

def System.inCallback (sys : System) : List String := sys.ticks.flatMap Scheduler.inCallback

/-- The steps of the condition: nothing is switched or added again that a live tick holds, no process dies with
schedules that are still there, and at a claim no schedule is due that a live tick holds without running its
callback. -/
def Sound (sys : System) : Event → Prop
  | .add id name _ intervalSeconds _ _ => ¬ Valid name intervalSeconds ∨ (∃ r ∈ sys.rows, r.id = id) ∨ id ∉ sys.held
  | .setEnabled id _ _ => (∀ r ∈ sys.rows, r.id ≠ id) ∨ id ∉ sys.held
  | .claim now _ => ∀ r ∈ sys.rows, Due now r → r.id ∈ sys.held → r.id ∈ sys.inCallback
  | .die k => ∀ t ∈ sys.ticks[k]?, ∀ id ∈ Scheduler.held t, ∀ r ∈ sys.rows, r.id ≠ id
  | _ => True

instance (sys : System) : DecidablePred (Sound sys) := fun e => by
  cases e <;> unfold Sound <;> infer_instance

/-- A schedule that is enabled and due and whose callback is not in progress is claimed, or the limit is exhausted by
others that are due no later. -/
def Claims (sys : System) : Event → Prop
  | .claim now limit => ∀ r ∈ sys.rows, Due now r → r.id ∉ sys.inCallback →
      r ∈ dueRows now limit sys.rows ∨ (dueRows now limit sys.rows).length = clampLimit limit ∧
        ∀ x ∈ dueRows now limit sys.rows, x.nextRunAt ≤ r.nextRunAt
  | _ => True

instance (sys : System) : DecidablePred (Claims sys) := fun e => by
  cases e <;> unfold Claims <;> infer_instance

structure Inv (sys : System) : Prop where
  keyed : Keyed Schedule.id sys.rows
  nodup : sys.held.Nodup
  running : ∀ r ∈ sys.rows, r.running = true ↔ r.id ∈ sys.held

section Step
variable {sys : System}

theorem keyed_setEnabled {id : String} {enabled : Bool} {time : Time} {rows : List Schedule} :
    Keyed Schedule.id (setEnabled id enabled time rows) ↔ Keyed Schedule.id rows := by
  unfold setEnabled
  exact keyed_updateWhere fun _ _ => rfl

theorem keyed_claimRows {now : Time} {claimed rows : List Schedule} :
    Keyed Schedule.id (claimRows now claimed rows) ↔ Keyed Schedule.id rows := by
  unfold claimRows
  exact keyed_updateWhere fun _ _ => rfl

theorem keyed_recordRow {now time : Time} {item : Schedule} {error : Option String} {rows : List Schedule} :
    Keyed Schedule.id (recordRow now time item error rows) ↔ Keyed Schedule.id rows := by
  unfold recordRow
  exact keyed_updateWhere fun _ _ => rfl

theorem inv_start : Inv {} := by
  refine ⟨List.nodup_nil, List.nodup_nil, fun r hr => ?_⟩
  cases hr

theorem inCallback_sublist (ticks : List Tick) : (ticks.flatMap inCallback).Sublist (ticks.flatMap held) := by
  induction ticks with
  | nil => exact List.Sublist.slnil
  | cons t ticks ih =>
    rw [List.flatMap_cons, List.flatMap_cons]
    refine List.Sublist.append ?_ ih
    unfold inCallback held
    by_cases hlive : t.live = true
    · rw [if_pos hlive]
      split_ifs
      · exact (List.take_sublist 1 t.items).map _
      · exact List.nil_sublist _
    · have hnot : ¬ (t.live = true ∧ t.phase = .calling) := fun h => hlive h.1
      rw [if_neg hlive, if_neg hnot]

theorem Inv.same (hinv : Inv sys) {k : ℕ} {t t' : Tick} (ht : sys.ticks[k]? = some t) (hheld : held t' = held t) :
    Inv (setTick k t' sys) := by
  obtain ⟨pre, post, hsplit, hset⟩ := exists_split ht
  have heq : (setTick k t' sys).held = sys.held := by
    show (sys.ticks.set k t').flatMap held = sys.ticks.flatMap held
    rw [hset, hsplit, List.flatMap_append, List.flatMap_cons, List.flatMap_append, List.flatMap_cons, hheld]
  refine ⟨hinv.keyed, ?_, fun r hr => ?_⟩
  · rw [heq]
    exact hinv.nodup
  · rw [heq]
    exact hinv.running r hr

theorem Inv.drop (hinv : Inv sys) {k : ℕ} {t t' : Tick} (ht : sys.ticks[k]? = some t) {d : List String}
    (hheld : (held t).Perm (d ++ held t')) {rows : List Schedule} (hkeyed : Keyed Schedule.id rows)
    (hrows : ∀ r' ∈ rows, (r'.id ∈ d ∧ r'.running = false) ∨
      r'.id ∉ d ∧ ∃ r ∈ sys.rows, r.id = r'.id ∧ r.running = r'.running) :
    Inv { setTick k t' sys with rows } := by
  obtain ⟨others, hold, hnew⟩ := flatMap_set held ht
  have hperm : sys.held.Perm (d ++ (sys.ticks.set k t').flatMap held) := by
    refine hold.trans ((hheld.append_right others).trans ?_)
    rw [List.append_assoc]
    exact (hnew t').symm.append_left d
  have hnodup := (hperm.nodup_iff).mp hinv.nodup
  obtain ⟨-, hrest, hdisjoint⟩ := List.nodup_append.mp hnodup
  refine ⟨hkeyed, hrest, fun r' hr' => ?_⟩
  rcases hrows r' hr' with ⟨hdropped, hfalse⟩ | ⟨hkept, r, hr, hid, hrunning⟩
  · rw [hfalse]
    refine ⟨fun h => (by cases h), fun hmem => ?_⟩
    exact absurd rfl (hdisjoint _ hdropped _ hmem)
  · rw [← hrunning, hinv.running r hr, hid, hperm.mem_iff, List.mem_append]
    exact ⟨fun h => h.resolve_left hkept, Or.inr⟩

theorem Inv.claim (hinv : Inv sys) (now : Time) (limit : ℤ) : Inv (step sys (.claim now limit)) := by
  have hclaimed : ∀ r ∈ dueRows now limit sys.rows, r ∈ sys.rows ∧ r.id ∉ sys.held := by
    intro r hr
    obtain ⟨hmem, -, hrunning⟩ := mem_of_mem_page hr
    refine ⟨hmem, fun hheld => ?_⟩
    rw [(hinv.running r hmem).mpr hheld] at hrunning
    cases hrunning
  have hheld : (step sys (.claim now limit)).held = sys.held ++ (dueRows now limit sys.rows).map Schedule.id := by
    show (sys.ticks ++ [_]).flatMap held = _
    rw [List.flatMap_append]
    simp [System.held, held]
  refine ⟨?_, ?_, fun r' hr' => ?_⟩
  · exact keyed_claimRows.mpr hinv.keyed
  · rw [hheld]
    refine List.nodup_append.mpr ⟨hinv.nodup, keyed_page hinv.keyed, fun id hid id' hid' heq => ?_⟩
    obtain ⟨r, hr, rfl⟩ := List.mem_map.mp hid'
    exact (hclaimed r hr).2 (heq ▸ hid)
  · rw [hheld, List.mem_append]
    obtain ⟨r, hr, rfl⟩ := mem_updateWhere.mp hr'
    split_ifs with hid
    · exact ⟨fun _ => Or.inr hid, fun _ => rfl⟩
    · rw [hinv.running r hr]
      exact ⟨Or.inl, fun h => h.resolve_right hid⟩

theorem Inv.add (hinv : Inv sys) {id name payload : String} {intervalSeconds : ℤ} {nextRunAt : Option Time} {time : Time}
    (hsound : Sound sys (.add id name payload intervalSeconds nextRunAt time)) :
    Inv { sys with rows := add id name payload intervalSeconds nextRunAt time sys.rows } := by
  unfold Scheduler.add
  by_cases hnew : Valid name intervalSeconds ∧ ∀ r ∈ sys.rows, r.id ≠ id
  · rw [if_pos hnew]
    have hfree : id ∉ sys.held := by
      rcases hsound with hinvalid | ⟨r, hr, hid⟩ | hfree
      · exact absurd hnew.1 hinvalid
      · exact absurd hid (hnew.2 r hr)
      · exact hfree
    refine ⟨keyed_append.mpr ⟨hinv.keyed, List.nodup_singleton _, fun r hr r' hr' => ?_⟩, hinv.nodup, fun r hr => ?_⟩
    · rw [List.mem_singleton.mp hr']
      exact hnew.2 r hr
    · rcases List.mem_append.mp hr with hr | hr
      · exact hinv.running r hr
      · rw [List.mem_singleton.mp hr]
        exact ⟨fun h => (by cases h), fun h => absurd h hfree⟩
  · rw [if_neg hnew]
    exact hinv

theorem Inv.setEnabled (hinv : Inv sys) {id : String} {enabled : Bool} {time : Time}
    (hsound : Sound sys (.setEnabled id enabled time)) :
    Inv { sys with rows := setEnabled id enabled time sys.rows } := by
  refine ⟨keyed_setEnabled.mpr hinv.keyed, hinv.nodup, fun r' hr' => ?_⟩
  obtain ⟨r, hr, rfl⟩ := mem_updateWhere.mp hr'
  split_ifs with hid
  · have hfree : id ∉ sys.held := hsound.resolve_left fun hnone => hnone r hr hid
    refine ⟨fun h => (by cases h), fun h => absurd ?_ hfree⟩
    rw [← hid]
    exact h
  · exact hinv.running r hr

theorem Inv.remove (hinv : Inv sys) (id : String) : Inv { sys with rows := remove id sys.rows } := by
  have hsub : (Scheduler.remove id sys.rows).Sublist sys.rows := List.filter_sublist
  exact ⟨hinv.keyed.sublist (hsub.map _), hinv.nodup, fun r hr => hinv.running r (hsub.subset hr)⟩

theorem Inv.record (hinv : Inv sys) {k : ℕ} {t : Tick} (ht : sys.ticks[k]? = some t) (hlive : t.live = true)
    {item : Schedule} {items : List Schedule} (hitems : t.items = item :: items) (error : Option String) (time : Time)
    (completed : List (Schedule × Option String)) :
    Inv { setTick k { t with phase := .waiting, items, completed } sys with
      rows := recordRow t.now time item error sys.rows } := by
  refine hinv.drop ht (d := [item.id]) ?_ (keyed_recordRow.mpr hinv.keyed) fun r' hr' => ?_
  · simp [held, hlive, hitems]
  · obtain ⟨r, hr, rfl⟩ := mem_updateWhere.mp hr'
    split_ifs with hid
    · exact Or.inl ⟨by simpa using hid, rfl⟩
    · exact Or.inr ⟨by simpa using hid, r, hr, rfl, rfl⟩

theorem Inv.onTick (hinv : Inv sys) {k : ℕ} {f : Tick → System → System}
    (h : ∀ t, sys.ticks[k]? = some t → t.live = true → Inv (f t sys)) : Inv (onTick k f sys) := by
  unfold Scheduler.onTick
  cases ht : sys.ticks[k]? with
  | none => exact hinv
  | some t =>
    simp only
    split_ifs with hlive
    · exact h t ht hlive
    · exact hinv

/-- **One step** of those of the condition. -/
theorem Inv.step (hinv : Inv sys) {e : Event} (hsound : Sound sys e) : Inv (step sys e) := by
  cases e with
  | add id name payload intervalSeconds nextRunAt time => exact hinv.add hsound
  | setEnabled id enabled time => exact hinv.setEnabled hsound
  | remove id => exact hinv.remove id
  | claim now limit => exact hinv.claim now limit
  | call k =>
    refine hinv.onTick fun t ht hlive => ?_
    split_ifs
    · exact hinv.same ht rfl
    · exact hinv
  | reply k error =>
    refine hinv.onTick fun t ht hlive => ?_
    split_ifs
    · exact hinv.same ht rfl
    · exact hinv
  | record k raised time =>
    refine hinv.onTick fun t ht hlive => ?_
    unfold recordItem
    split
    · next error item items hphase hitems => exact hinv.record ht hlive hitems _ time _
    · exact hinv
  | die k =>
    refine hinv.onTick fun t ht hlive => ?_
    refine hinv.drop ht (d := held t) ?_ hinv.keyed fun r hr => Or.inr ⟨fun hid => ?_, r, hr, rfl, rfl⟩
    · simp [held]
    · exact hsound t ht r.id hid r hr rfl

theorem claims_of_sound (hinv : Inv sys) {e : Event} (hsound : Sound sys e) : Claims sys e := by
  cases e with
  | claim now limit =>
    intro r hr hdue hidle
    have hrunning : r.running = false := by
      cases hr' : r.running with
      | false => rfl
      | true => exact absurd (hsound r hr hdue ((hinv.running r hr).mp hr')) hidle
    have hpage : r ∈ dueRows now limit sys.rows ∨ (dueRows now limit sys.rows).length = clampLimit limit ∧
        ∀ x ∈ dueRows now limit sys.rows, decide (x.nextRunAt ≤ r.nextRunAt) = true := by
      refine mem_page_or_full (fun a b c hab hbc => ?_) (fun a b => ?_) hr ⟨hdue, hrunning⟩
      · exact decide_eq_true ((of_decide_eq_true hab).trans (of_decide_eq_true hbc))
      · simpa using le_total a.nextRunAt b.nextRunAt
    refine hpage.imp_right fun ⟨hlength, hle⟩ => ⟨hlength, fun x hx => ?_⟩
    simpa using hle x hx
  | _ => trivial

end Step

/-! ### All runs -/

/-- **The local scheduler.** In a run of steps of the condition the callbacks in progress are those of different
schedules, after each step, and each tick claims the schedules that it should. -/
theorem scheduler (events : List Event) (hsound : Along step Sound {} events) :
    (∀ pre post, events = pre ++ post → (run step {} pre).inCallback.Nodup) ∧ Along step Claims {} events := by
  constructor
  · rintro pre post rfl
    have hpre := (along_append.mp hsound).1
    have hinv : Inv (run step {} pre) := inv_run (fun _ _ h hs => h.step hs) inv_start hpre
    exact (inCallback_sublist _).nodup hinv.nodup
  · exact along_of_inv (fun _ _ h hs => h.step hs) (fun _ _ h hs => claims_of_sound h hs) inv_start hsound

def daily : List Event :=
  [.add "s" "Report" "{}" 86400 (some 0) 0, .claim 0 20, .call 0, .reply 0 none, .record 0 none 10, .claim 86400 20, .call 1]

theorem scheduler_daily : (run step {} daily).inCallback = ["s"] ∧ Along step Claims {} daily :=
  ⟨by decide +kernel, (scheduler daily (by decide +kernel)).2⟩

/-- A schedule is switched off and on while its callback runs; and a process dies in a callback. -/
theorem not_scheduler :
    ¬ (run step {} [.add "s" "Report" "{}" 86400 (some 0) 0, .claim 0 20, .call 0, .setEnabled "s" false 1,
        .setEnabled "s" true 2, .claim 5 20, .call 1]).inCallback.Nodup ∧
      ¬ Along step Claims {} [.add "s" "Report" "{}" 86400 (some 0) 0, .claim 0 20, .call 0, .die 0, .claim 5 20] := by
  constructor
  · decide +kernel
  · decide +kernel

end Smara.Desktop.Scheduler
