import Smara.Lib.Machine
import Smara.Lib.Workers
import Smara.Server.Schema

/-! # Scheduled tasks

A message that the owner has approved at night is a task, which `run_due` carries out when the shop opens. A
call claims some tasks that are due and carries them out one after the other; a task that was claimed long ago
and is not finished may be claimed again.

* `claim`, `go`, `send`, `fail`: the parts of `run_due` and of `_run_one`.
* `Fresh`: no task is claimed for which a message was sent, or which another call still has to do.
* `sent_once`: in a run with such claims at most one message is sent for each task. -/

namespace Smara.Server.Tasks

open Lib.Machine Lib.Table Lib.Workers Server.Schema
open TaskStore.Schema (Time seconds)

def maxAttempts : ℕ := 3

def staleRunning : Time := minutes 15

def retryAfter : Time := minutes 10

inductive TaskKind
  | followup | sendMessage
  deriving DecidableEq

inductive TaskStatus
  | pending | running | done | cancelled | failed
  deriving DecidableEq

structure Task where
  id : Id
  tenantId : Id
  runAt : Time
  kind : TaskKind
  status : TaskStatus := .pending
  attempts : ℕ := 0
  startedAt : Option Time := none
  deriving DecidableEq

/-- How far `_run_one` has come. -/
inductive Point
  /-- the shop is looked up -/
  | tenant
  /-- the session of a follow-up -/
  | session
  /-- the party and the obligation are read, and the message is sent -/
  | read
  | record
  | transition
  /-- the owner is told -/
  | note
  /-- the task is marked as done -/
  | mark
  deriving DecidableEq

/-- A call of `run_due` at work. -/
structure Run where
  now : Time
  /-- the tasks that it has claimed and not begun -/
  rows : List Task
  current : Option (Task × Point) := none
  done : ℕ := 0

structure State where
  rows : List Task := []
  runs : List Run := []
  /-- the tasks for which a message was sent to the customer, in their order -/
  sent : List Id := []

/-- The task is due, or was claimed too long ago. -/
def Claimable (now : Time) (t : Task) : Prop :=
  t.runAt ≤ now ∧ (t.status = .pending ∨ t.status = .running ∧ ∃ at_ ∈ t.startedAt, at_ < now - staleRunning)

instance (now : Time) (t : Task) : Decidable (Claimable now t) := inferInstanceAs (Decidable (_ ∧ _))

/-- `ORDER BY run_at LIMIT 5 FOR UPDATE SKIP LOCKED` -/
def claimRows (now : Time) (locked : List Id) (rows : List Task) : List Task :=
  ((rows.filter fun t => Claimable now t ∧ t.id ∉ locked).mergeSort fun t t' => decide (t.runAt ≤ t'.runAt)).take 5

def claimed (now : Time) (t : Task) : Task :=
  { t with status := .running, startedAt := some now, attempts := t.attempts + 1 }

/-- A call claims its tasks. -/
def claim (quiet : Time → Bool) (now : Time) (locked : List Id) (s : State) : State :=
  if quiet now then s
  else
    let due := claimRows now locked s.rows
    { s with
      rows := updateWhere (fun t => t.id ∈ due.map Task.id) (claimed now) s.rows
      runs := s.runs ++ [{ now, rows := due.map (claimed now) }] }

/-- An exception: the task is to be tried again, or has failed. -/
def failed (now : Time) (t row : Task) : Task :=
  { row with
    status := if t.attempts ≥ maxAttempts then .failed else .pending
    runAt := now + retryAfter }

/-- The handler of an exception. -/
def fail (i : ℕ) (r : Run) (t : Task) (s : State) : State :=
  { s with
    rows := updateWhere (fun row => row.id = t.id) (failed r.now t) s.rows
    runs := s.runs.set i { r with current := none } }

/-- The point that comes next, if nothing is raised. -/
def Point.next (kind : TaskKind) : Point → Option Point
  | .tenant => if kind = .followup then some .session else some .read
  | .session => some .mark
  | .read => none
  | .record => some .transition
  | .transition => some .note
  | .note => some .mark
  | .mark => none

/-- The point that comes next if there is no shop, or the message is not to be sent. -/
def Point.skip : Point → Option Point
  | .tenant => some .mark
  | .read => some .note
  | _ => none

/-- What may happen next; a call is given by its number. -/
inductive Action
  | insert (t : Task)
  /-- `cancel_followup` -/
  | cancel (tenantId id : Id)
  | claim (now : Time) (locked : List Id)
  /-- the call begins its next task -/
  | begin (run : ℕ)
  | go (run : ℕ)
  | skip (run : ℕ)
  /-- `wa.send` is called, and returns or raises -/
  | send (run : ℕ) (ok : Bool)
  | raises (run : ℕ)
  | crash (run : ℕ)

def begin (i : ℕ) (s : State) : State :=
  match s.runs[i]? with
  | none => s
  | some r =>
    match r.current, r.rows with
    | none, t :: rows => { s with runs := s.runs.set i { r with current := some (t, .tenant), rows } }
    | _, _ => s

/-- The call goes on to a point, or marks its task as done. -/
def go (i : ℕ) (s : State) : State :=
  match s.runs[i]? with
  | none => s
  | some r =>
    match r.current with
    | none => s
    | some (t, .mark) =>
      { s with
        rows := updateWhere (fun row => row.id = t.id) (fun row => { row with status := .done }) s.rows
        runs := s.runs.set i { r with current := none, done := r.done + 1 } }
    | some (t, p) =>
      match p.next t.kind with
      | none => s
      | some p => { s with runs := s.runs.set i { r with current := some (t, p) } }

def skip (i : ℕ) (s : State) : State :=
  match s.runs[i]? with
  | none => s
  | some r =>
    match r.current with
    | none => s
    | some (t, p) =>
      match p.skip with
      | none => s
      | some p => { s with runs := s.runs.set i { r with current := some (t, p) } }

/-- `wa.send` in `deliver_message`. -/
def send (i : ℕ) (ok : Bool) (s : State) : State :=
  match s.runs[i]? with
  | none => s
  | some r =>
    match r.current with
    | some (t, .read) =>
      let s := { s with sent := s.sent ++ [t.id] }
      if ok then { s with runs := s.runs.set i { r with current := some (t, .record) } } else fail i r t s
    | _ => s

/-- What is raised while a task is marked ends the call. -/
def raises (i : ℕ) (s : State) : State :=
  match s.runs[i]? with
  | none => s
  | some r =>
    match r.current with
    | none => s
    | some (_, .mark) => { s with runs := s.runs.set i { r with current := none, rows := [] } }
    | some (t, _) => fail i r t s

def step (quiet : Time → Bool) (s : State) : Action → State
  | .insert t => if ∃ row ∈ s.rows, row.id = t.id then s else { s with rows := s.rows ++ [t] }
  | .cancel tenantId id =>
    let cancelled (t : Task) : Task := { t with status := .cancelled }
    { s with rows := updateWhere (fun t => t.id = id ∧ t.tenantId = tenantId ∧ t.status = .pending) cancelled s.rows }
  | .claim now locked => claim quiet now locked s
  | .begin i => begin i s
  | .go i => go i s
  | .skip i => skip i s
  | .send i ok => send i ok s
  | .raises i => raises i s
  | .crash i =>
    match s.runs[i]? with
    | none => s
    | some r => { s with runs := s.runs.set i { r with current := none, rows := [] } }

/-! ### What is to hold -/

def Run.held (r : Run) : List Task := (r.current.map Prod.fst).toList ++ r.rows

/-- **At most one message is sent for each task.** -/
def Once (quiet : Time → Bool) (cs : List Action) : Prop := (run (step quiet) {} cs).sent.Nodup

instance (quiet : Time → Bool) (cs : List Action) : Decidable (Once quiet cs) :=
  inferInstanceAs (Decidable (List.Nodup _))

/-- **The claims that keep it**: no task is claimed for which `wa.send` was called, or which another call still has
to do with. -/
def Fresh (s : State) : Action → Prop
  | .claim now locked => ∀ t ∈ claimRows now locked s.rows,
      t.id ∉ s.sent ∧ ∀ r ∈ s.runs, ∀ h ∈ r.held, h.id ≠ t.id
  | _ => True

instance (s : State) : ∀ c, Decidable (Fresh s c)
  | .claim _ _ => inferInstanceAs (Decidable (∀ _ ∈ _, _))
  | .insert _ => .isTrue trivial
  | .cancel _ _ => .isTrue trivial
  | .begin _ => .isTrue trivial
  | .go _ => .isTrue trivial
  | .skip _ => .isTrue trivial
  | .send _ _ => .isTrue trivial
  | .raises _ => .isTrue trivial
  | .crash _ => .isTrue trivial

/-! ### The invariant -/

/-- The tasks of a call for which a message may yet be sent. -/
def Run.unsent (r : Run) : List Task :=
  match r.current with
  | some (t, .tenant) => t :: r.rows
  | some (t, .read) => t :: r.rows
  | _ => r.rows

def holds (s : State) : List Task := s.runs.flatMap Run.held

def unsent (s : State) : List Task := s.runs.flatMap Run.unsent

/-- **The invariant**: a task is held once, and while a message may yet be sent for it none was. -/
structure Inv (s : State) : Prop where
  distinct : Keyed Task.id s.rows
  once : ((holds s).map Task.id).Nodup
  unsent : ∀ t ∈ unsent s, t.id ∉ s.sent
  sent : s.sent.Nodup

theorem inv_init : Inv {} := by
  constructor
  all_goals simp [holds, unsent, Keyed]

theorem unsent_sublist (r : Run) : r.unsent.Sublist r.held := by
  unfold Run.unsent Run.held
  split
  · rename_i t h
    simp [h]
  · rename_i t h
    simp [h]
  · exact List.sublist_append_right _ _

theorem Inv.set {s : State} (h : Inv s) {i : ℕ} {r r' : Run} (hr : s.runs[i]? = some r)
    (hheld : r'.held.Subperm r.held) (hunsent : r'.unsent.Subperm r.unsent) {rows : List Task}
    (hrows : Keyed Task.id rows) : Inv { s with rows, runs := s.runs.set i r' } where
  distinct := hrows
  once := nodup_of_subperm h.once (subperm_set hr hheld)
  unsent t ht := h.unsent t ((subperm_set hr hunsent).subset ht)
  sent := h.sent

theorem keyed_update {s : State} (h : Inv s) {p : Task → Prop} [DecidablePred p] {f : Task → Task}
    (hf : ∀ t, (f t).id = t.id) : Keyed Task.id (updateWhere p f s.rows) :=
  (keyed_updateWhere fun t _ => hf t).mpr h.distinct

theorem claimRows_ids {now : Time} {locked : List Id} {rows : List Task} (h : Keyed Task.id rows) :
    ((claimRows now locked rows).map Task.id).Nodup := by
  refine List.Nodup.sublist ((List.take_sublist ..).map _) ?_
  rw [((List.mergeSort_perm _ _).map Task.id).nodup_iff]
  exact h.sublist (List.filter_sublist.map _)

theorem inv_claim {quiet : Time → Bool} {s : State} (h : Inv s) {now : Time} {locked : List Id}
    (hc : Fresh s (.claim now locked)) : Inv (claim quiet now locked s) := by
  unfold claim
  split_ifs
  · exact h
  · simp only
    have hids : ((claimRows now locked s.rows).map (claimed now)).map Task.id =
        (claimRows now locked s.rows).map Task.id := by
      rw [List.map_map]
      rfl
    refine ⟨keyed_update h fun t => rfl, ?_, ?_, h.sent⟩
    · simp only [holds, List.flatMap_append, List.flatMap_singleton, Run.held, Option.map_none, Option.toList_none,
        List.nil_append, List.map_append, List.nodup_append, hids]
      refine ⟨h.once, claimRows_ids h.distinct, ?_⟩
      intro a ha b hb hab
      obtain ⟨x, hx, rfl⟩ := List.mem_map.mp ha
      obtain ⟨t, ht, rfl⟩ := List.mem_map.mp hb
      obtain ⟨r, hr, hheld⟩ := List.mem_flatMap.mp hx
      exact (hc t ht).2 r hr x hheld hab
    · intro t ht
      simp only [unsent, List.flatMap_append, List.flatMap_singleton] at ht
      rcases List.mem_append.mp ht with ht | ht
      · exact h.unsent t ht
      · obtain ⟨t', ht', rfl⟩ := List.mem_map.mp ht
        exact (hc t' ht').1

theorem inv_fail {s : State} (h : Inv s) {i : ℕ} {r : Run} {t : Task} {p : Point} (hr : s.runs[i]? = some r)
    (hcurrent : r.current = some (t, p)) : Inv (fail i r t s) := by
  refine h.set hr ?_ ?_ (keyed_update h fun t => rfl)
  · simp only [Run.held, hcurrent, Option.map_none, Option.toList_none]
    exact (List.sublist_append_right _ _).subperm
  · simp only [Run.unsent, hcurrent]
    split
    · exact (List.sublist_cons_self _ _).subperm
    · exact (List.sublist_cons_self _ _).subperm
    · exact List.Subperm.refl _

theorem inv_point {s : State} (h : Inv s) {i : ℕ} {r : Run} {t : Task} {p p' : Point} (hr : s.runs[i]? = some r)
    (hcurrent : r.current = some (t, p)) (hp : p' = .tenant ∨ p' = .read → p = .tenant ∨ p = .read) :
    Inv { s with runs := s.runs.set i { r with current := some (t, p') } } := by
  refine h.set hr ?_ ?_ h.distinct
  · simp only [Run.held, hcurrent]
    exact List.Subperm.refl _
  · have hleft : ({ r with current := some (t, p') } : Run).unsent.Sublist
        (if p' = .tenant ∨ p' = .read then t :: r.rows else r.rows) := by
      cases p'
      all_goals simp [Run.unsent]
    have hright : (if p = .tenant ∨ p = .read then t :: r.rows else r.rows).Sublist r.unsent := by
      cases p
      all_goals simp [Run.unsent, hcurrent]
    refine (hleft.trans (List.Sublist.trans ?_ hright)).subperm
    split_ifs with h₁ h₂
    · exact List.Sublist.refl _
    · exact absurd (hp h₁) h₂
    · exact List.sublist_cons_self _ _
    · exact List.Sublist.refl _

theorem inv_begin {s : State} (h : Inv s) (i : ℕ) : Inv (begin i s) := by
  unfold begin
  split
  · exact h
  · rename_i r hr
    split
    · rename_i t rows hcurrent hrows
      refine h.set hr ?_ ?_ h.distinct
      · simp only [Run.held, hcurrent, hrows]
        exact List.Subperm.refl _
      · simp only [Run.unsent, hcurrent, hrows]
        exact List.Subperm.refl _
    · exact h

theorem next_point {kind : TaskKind} {p p' : Point} (h : p.next kind = some p') :
    p' = .tenant ∨ p' = .read → p = .tenant ∨ p = .read := by
  revert h
  cases kind
  all_goals cases p
  all_goals cases p'
  all_goals decide

theorem skip_point {p p' : Point} (h : p.skip = some p') :
    p' = .tenant ∨ p' = .read → p = .tenant ∨ p = .read := by
  revert h
  cases p
  all_goals cases p'
  all_goals decide

theorem inv_go {s : State} (h : Inv s) (i : ℕ) : Inv (go i s) := by
  unfold go
  split
  · exact h
  · rename_i r hr
    split
    · exact h
    · rename_i t hcurrent
      refine h.set hr ?_ ?_ (keyed_update h fun t => rfl)
      · simp only [Run.held, hcurrent]
        exact (List.sublist_cons_self _ _).subperm
      · simp only [Run.unsent, hcurrent]
        exact List.Subperm.refl _
    · rename_i t p _ hcurrent
      split
      · exact h
      · rename_i p' hp
        exact inv_point h hr hcurrent (next_point hp)

theorem inv_skip {s : State} (h : Inv s) (i : ℕ) : Inv (skip i s) := by
  unfold skip
  split
  · exact h
  · rename_i r hr
    split
    · exact h
    · rename_i t p hcurrent
      split
      · exact h
      · rename_i p' hp
        exact inv_point h hr hcurrent (skip_point hp)

theorem inv_raises {s : State} (h : Inv s) (i : ℕ) : Inv (raises i s) := by
  unfold raises
  split
  · exact h
  · rename_i r hr
    split
    · exact h
    · refine h.set hr ?_ ?_ h.distinct
      all_goals exact List.nil_subperm
    · rename_i t p _ hcurrent
      exact inv_fail h hr hcurrent

theorem inv_sent {s : State} (h : Inv s) {i : ℕ} {r : Run} {t : Task} (hr : s.runs[i]? = some r)
    (hcurrent : r.current = some (t, .read)) :
    t.id ∉ s.sent ∧ ∀ x ∈ (s.runs.set i { r with current := none }).flatMap Run.held, x.id ≠ t.id := by
  constructor
  · refine h.unsent t (List.mem_flatMap.mpr ⟨r, List.mem_of_getElem? hr, ?_⟩)
    simp [Run.unsent, hcurrent]
  · intro x hx hid
    obtain ⟨others, hold, hset⟩ := flatMap_set Run.held hr
    have hheld : r.held = t :: r.rows := by simp [Run.held, hcurrent]
    rw [hheld] at hold
    have honce : ((t :: (r.rows ++ others)).map Task.id).Nodup := (hold.map _).nodup_iff.mp h.once
    refine (List.nodup_cons.mp honce).1 ?_
    rw [← hid]
    exact List.mem_map_of_mem ((hset _).subset hx)

theorem inv_send {quiet : Time → Bool} {s : State} (h : Inv s) (i : ℕ) (ok : Bool) :
    Inv (step quiet s (.send i ok)) := by
  simp only [step, send]
  split
  · exact h
  · rename_i r hr
    split
    · rename_i t hcurrent
      obtain ⟨hnew, hother⟩ := inv_sent h hr hcurrent
      -- The call with its task at a point after the send, or given up.
      have hafter {r' : Run} {rows : List Task} (hrows : Keyed Task.id rows) (hheld : r'.held.Subperm r.held)
          (hunsent : r'.unsent = r.rows) :
          Inv { rows, runs := s.runs.set i r', sent := s.sent ++ [t.id] } := by
        have hsub : r'.unsent.Subperm r.unsent := by
          rw [hunsent]
          simp only [Run.unsent, hcurrent]
          exact (List.sublist_cons_self _ _).subperm
        have hset := h.set hr hheld hsub hrows
        refine ⟨hrows, hset.once, fun x hx => ?_, ?_⟩
        · intro hmem
          rcases List.mem_append.mp hmem with hmem | hmem
          · exact hset.unsent x hx hmem
          · refine hother x ?_ (List.mem_singleton.mp hmem)
            obtain ⟨others, -, hnext⟩ := flatMap_set Run.unsent hr
            have hsame : x ∈ (s.runs.set i { r with current := none }).flatMap Run.unsent := by
              have hx := (hnext r').subset hx
              rw [hunsent] at hx
              exact (hnext { r with current := none }).symm.subset hx
            obtain ⟨r₁, hr₁, hx₁⟩ := List.mem_flatMap.mp hsame
            exact List.mem_flatMap.mpr ⟨r₁, hr₁, (unsent_sublist r₁).subset hx₁⟩
        · refine List.nodup_append.mpr ⟨h.sent, List.nodup_singleton _, ?_⟩
          rintro a ha b hb rfl
          rw [List.mem_singleton.mp hb] at ha
          exact hnew ha
      split_ifs
      · refine hafter h.distinct ?_ rfl
        simp only [Run.held, hcurrent]
        exact List.Subperm.refl _
      · refine hafter (keyed_update h fun t => rfl) ?_ rfl
        simp only [Run.held, hcurrent]
        exact (List.sublist_cons_self _ _).subperm
    · exact h

theorem inv_step {quiet : Time → Bool} {s : State} {c : Action} (h : Inv s) (hc : Fresh s c) :
    Inv (step quiet s c) := by
  cases c with
  | insert t =>
    simp only [step]
    split_ifs with hold
    · exact h
    · refine ⟨keyed_append.mpr ⟨h.distinct, by simp [Keyed], ?_⟩, h.once, h.unsent, h.sent⟩
      intro row hrow t' ht' hid
      rw [List.mem_singleton.mp ht'] at hid
      exact hold ⟨row, hrow, hid⟩
  | cancel tenantId id => exact ⟨keyed_update h fun t => rfl, h.once, h.unsent, h.sent⟩
  | claim now locked => exact inv_claim h hc
  | begin i => exact inv_begin h i
  | go i => exact inv_go h i
  | skip i => exact inv_skip h i
  | send i ok => exact inv_send h i ok
  | raises i => exact inv_raises h i
  | crash i =>
    simp only [step]
    split
    · exact h
    · rename_i r hr
      refine h.set hr ?_ ?_ h.distinct
      all_goals exact List.nil_subperm

/-- **At most one message for each task.** Over calls that overlap, exceptions at any point, calls that break off
and tasks that are claimed again, in any order: if no task is claimed for which `wa.send` was called, or which
another call still has to do with, it is called at most once for each task. -/
theorem sent_once (quiet : Time → Bool) (cs : List Action) (h : Along (step quiet) Fresh {} cs) : Once quiet cs :=
  (inv_run (fun _ _ => inv_step) inv_init h).sent

def approvedMessage : Task := { id := "task", tenantId := "shop", runAt := 0, kind := .sendMessage }

/-- A task whose shop could not be looked up is tried again, and its message is sent. -/
def triedAgain : List Action :=
  [.insert approvedMessage, .claim 0 [], .begin 0, .raises 0, .claim (minutes 11) [], .begin 1, .go 1, .send 1 true,
    .go 1, .go 1, .go 1, .go 1, .claim (minutes 30) []]

theorem triedAgain_sent_once : Along (step fun _ => false) Fresh {} triedAgain ∧ Once (fun _ => false) triedAgain :=
  have h : Along (step fun _ => false) Fresh {} triedAgain := by decide +kernel
  ⟨h, sent_once (fun _ => false) triedAgain h⟩

/-- The message was sent, and could not be recorded. -/
def unrecorded : List Action :=
  [.insert approvedMessage, .claim 0 [], .begin 0, .go 0, .send 0 true, .raises 0, .claim (minutes 11) [], .begin 1,
    .go 1, .send 1 true]

/-- It is sent again. -/
theorem sent_twice : ¬ ∀ quiet cs, Once quiet cs := by
  intro h
  have honce := h (fun _ => false) unrecorded
  revert honce
  decide +kernel

end Smara.Server.Tasks
