import Smara.Lib.Machine
import Smara.Lib.Workers
import Smara.Server.Schema

/-! # The outbox and its workers

What is to be remembered is queued with the change that it is about, and is delivered by `drain`, which may be
called again while an earlier call is still at work. A call leases the rows that are due, the first of each
user, delivers them one after the other over the network, and writes down what has come of each.

* `lease`, `deliver`, `finish`: the parts of `drain`.
* `Action`, `step`: rows are written and committed, calls go on or break off, in any order.
* `Exclusive`: no call leases a row that another still holds, or before an earlier one is committed.
* `delivered_in_order`: in a run with such leases the rows of a user are delivered in order, a row that is done
  stays so, and no two calls deliver the same row at once. -/

namespace Smara.Server.Outbox

open Lib.Machine Lib.Table Lib.Workers Server.Schema
open TaskStore.Schema (Time seconds)

def leaseTime : Time := minutes 5

def maxAttempts : ℕ := 20

def backoff (attempts : ℕ) : Time := min (seconds (30 * 2 ^ attempts)) (minutes 60)

/-! ### Calls of `drain` -/

/-- A call of `drain` at work. -/
structure Drain where
  now : Time
  /-- the rows that it has leased and has not begun to deliver -/
  rows : List OutboxRow
  /-- the row in delivery, with the answer when it has come -/
  current : Option (OutboxRow × Option Bool) := none
  delivered : ℕ := 0
  failed : ℕ := 0

/-- The rows that a call has still to do with. -/
def Drain.held (d : Drain) : List OutboxRow := (d.current.map Prod.fst).toList ++ d.rows

/-- The row that a call is delivering. -/
def Drain.sending (d : Drain) : Option OutboxRow :=
  match d.current with
  | some (r, none) => some r
  | _ => none

structure State where
  rows : List OutboxRow := []
  seq : ℕ := 0
  /-- the rows of transactions that are not committed -/
  uncommitted : List OutboxRow := []
  drains : List Drain := []
  /-- the deliveries that were begun, in their order -/
  log : List OutboxRow := []
  /-- `last_continuum_source_id` of obligations, as it was written -/
  stamps : List (Id × String) := []

def Leasable (now : Time) (rows : List OutboxRow) (r : OutboxRow) : Prop :=
  r.status = .pending ∧ r.nextAttemptAt ≤ now ∧
    ¬ ∃ e ∈ rows, e.userId = r.userId ∧ e.status = .pending ∧ e.id < r.id

instance (now : Time) (rows : List OutboxRow) (r : OutboxRow) : Decidable (Leasable now rows r) :=
  inferInstanceAs (Decidable (_ ∧ _))

/-- `ORDER BY o.id LIMIT … FOR UPDATE OF o SKIP LOCKED` -/
def leaseRows (now : Time) (limit : ℕ) (locked : List ℕ) (rows : List OutboxRow) : List OutboxRow :=
  ((rows.filter fun r => Leasable now rows r ∧ r.id ∉ locked).mergeSort fun r r' => decide (r.id ≤ r'.id)).take
    limit

def leased (now : Time) (r : OutboxRow) : OutboxRow := { r with nextAttemptAt := now + leaseTime }

def lease (now : Time) (limit : ℕ) (locked : List ℕ) (s : State) : State :=
  let due := leaseRows now limit locked s.rows
  { s with
    rows := updateWhere (fun r => r.id ∈ due.map OutboxRow.id) (leased now) s.rows
    drains := s.drains ++ [{ now, rows := due.map (leased now) }] }

/-- A failure is written down. -/
def Drain.fail (d : Drain) (r : OutboxRow) (row : OutboxRow) : OutboxRow :=
  { row with
    attempts := r.attempts + 1
    nextAttemptAt := d.now + backoff (r.attempts + 1)
    status := if r.attempts + 1 ≥ maxAttempts then .dead else .pending }

/-- What has come of the row in delivery is written down. -/
def finish (i : ℕ) (d : Drain) (r : OutboxRow) (ok : Bool) (s : State) : State :=
  if ok then
    { s with
      rows := updateWhere (fun row => row.id = r.id) (fun row => { row with status := .done }) s.rows
      stamps := s.stamps ++ r.stampObligationId.toList.map fun id => (id, r.sourceId)
      drains := s.drains.set i { d with current := none, delivered := d.delivered + 1 } }
  else
    { s with
      rows := updateWhere (fun row => row.id = r.id) (d.fail r) s.rows
      drains := s.drains.set i { d with current := none, failed := d.failed + 1 } }

/-- What may happen next; a call is given by its number. -/
inductive Action
  /-- `enqueue` in a transaction -/
  | insert (userId sourceId text : String) (trusted : Bool) (stampObligationId : Option Id) (now : Time)
  | commit (id : ℕ)
  | abort (id : ℕ)
  /-- a call of `drain` leases its rows -/
  | lease (now : Time) (limit : ℕ) (locked : List ℕ)
  /-- the call begins to deliver one of its rows -/
  | deliver (drain : ℕ) (row : ℕ)
  /-- the network answers -/
  | answer (drain : ℕ) (ok : Bool)
  | finish (drain : ℕ)
  /-- the call breaks off -/
  | crash (drain : ℕ)

/-- `enqueue`: the number is taken, and the row is not yet committed. A row with the same source waits for the
one that is not committed. -/
def insert (userId sourceId text : String) (trusted : Bool) (stampObligationId : Option Id) (now : Time)
    (s : State) : State :=
  let id := s.seq + 1
  if ∃ r ∈ s.uncommitted, r.sourceId = sourceId then s
  else if ∃ r ∈ s.rows, r.sourceId = sourceId then { s with seq := id }
  else
    { s with
      seq := id
      uncommitted := s.uncommitted ++
        [{ id, userId, sourceId, text, trusted, stampObligationId, nextAttemptAt := now }] }

def deliver (i : ℕ) (row : ℕ) (s : State) : State :=
  match s.drains[i]? with
  | none => s
  | some d =>
    match d.current, d.rows[row]? with
    | none, some r =>
      { s with
        drains := s.drains.set i { d with current := some (r, none), rows := d.rows.eraseIdx row }
        log := s.log ++ [r] }
    | _, _ => s

def step (s : State) : Action → State
  | .insert userId sourceId text trusted stampObligationId now =>
    insert userId sourceId text trusted stampObligationId now s
  | .commit id =>
    { s with
      rows := s.rows ++ s.uncommitted.filter fun r => r.id = id
      uncommitted := deleteWhere (fun r => r.id = id) s.uncommitted }
  | .abort id => { s with uncommitted := deleteWhere (fun r => r.id = id) s.uncommitted }
  | .lease now limit locked => lease now limit locked s
  | .deliver i row => deliver i row s
  | .answer i ok =>
    match s.drains[i]? with
    | none => s
    | some d =>
      match d.current with
      | some (r, none) => { s with drains := s.drains.set i { d with current := some (r, some ok) } }
      | _ => s
  | .finish i =>
    match s.drains[i]? with
    | none => s
    | some d =>
      match d.current with
      | some (r, some ok) => finish i d r ok s
      | _ => s
  | .crash i =>
    match s.drains[i]? with
    | none => s
    | some d => { s with drains := s.drains.set i { d with current := none, rows := [] } }

/-! ### What is to hold -/

def begun (s : State) : Action → Option OutboxRow
  | .deliver i row =>
    match s.drains[i]? with
    | none => none
    | some d => if d.current.isSome then none else d.rows[row]?
  | _ => none

def AfterEarlier (s : State) (c : Action) : Prop :=
  ∀ r ∈ begun s c, ∀ e ∈ s.rows, e.userId = r.userId → e.id < r.id → e.status = .done ∨ e.status = .dead

def DoneStays (s : State) (c : Action) : Prop :=
  ∀ r ∈ s.rows, r.status = .done → ∃ r' ∈ (step s c).rows, r'.id = r.id ∧ r'.status = .done

def Ordered (s : State) : Prop := s.log.Pairwise fun r r' => r.userId = r'.userId → r.id ≤ r'.id

def Alone (s : State) : Prop := (s.drains.filterMap fun d => d.sending.map OutboxRow.id).Nodup

/-- **What the outbox promises of a run.** -/
def InOrder (cs : List Action) : Prop :=
  Along step (fun s c => AfterEarlier s c ∧ DoneStays s c) {} cs ∧
    ∀ pre post, cs = pre ++ post → Ordered (run step {} pre) ∧ Alone (run step {} pre)

/-- **The leases that keep it**: no row is leased that another call still holds, or whose user has an earlier row
that is not committed. -/
def Exclusive (s : State) : Action → Prop
  | .lease now limit locked => ∀ r ∈ leaseRows now limit locked s.rows,
      (∀ d ∈ s.drains, ∀ h ∈ d.held, h.id ≠ r.id) ∧ ∀ e ∈ s.uncommitted, e.userId = r.userId → r.id < e.id
  | _ => True

instance (s : State) : ∀ c, Decidable (Exclusive s c)
  | .lease _ _ _ => inferInstanceAs (Decidable (∀ _ ∈ _, _))
  | .insert _ _ _ _ _ _ => .isTrue trivial
  | .commit _ => .isTrue trivial
  | .abort _ => .isTrue trivial
  | .deliver _ _ => .isTrue trivial
  | .answer _ _ => .isTrue trivial
  | .finish _ => .isTrue trivial
  | .crash _ => .isTrue trivial

instance (s : State) (c : Action) : Decidable (DoneStays s c) := inferInstanceAs (Decidable (∀ _ ∈ _, _))

/-! ### The invariant -/

/-- No earlier row of the user is pending or still to be committed. -/
def Front (s : State) (x : OutboxRow) : Prop :=
  (∀ e ∈ s.rows, e.userId = x.userId → e.id < x.id → e.status ≠ .pending) ∧
    ∀ e ∈ s.uncommitted, e.userId = x.userId → x.id < e.id

def holds (s : State) : List OutboxRow := s.drains.flatMap Drain.held

def Pending (s : State) (h : OutboxRow) : Prop :=
  ∃ r ∈ s.rows, r.id = h.id ∧ r.userId = h.userId ∧ r.status = .pending

/-- **The invariant**: each row that is held or was delivered is at the front of its user, those that are held are
pending and are held once. -/
structure Inv (s : State) : Prop where
  distinct : Keyed OutboxRow.id (s.rows ++ s.uncommitted)
  below : ∀ r ∈ s.rows ++ s.uncommitted, r.id ≤ s.seq
  logBelow : ∀ x ∈ s.log, x.id ≤ s.seq
  pending : ∀ h ∈ holds s, Pending s h
  once : ((holds s).map OutboxRow.id).Nodup
  front : ∀ h ∈ holds s, Front s h
  logFront : ∀ x ∈ s.log, Front s x
  ordered : Ordered s

theorem inv_init : Inv {} := by
  constructor
  all_goals simp [holds, Ordered, Keyed]

theorem Inv.distinctRows {s : State} (h : Inv s) : Keyed OutboxRow.id s.rows := (keyed_append.mp h.distinct).1

theorem Inv.fewer {s : State} (h : Inv s) {drains : List Drain}
    (hheld : (drains.flatMap Drain.held).Subperm (holds s)) : Inv { s with drains } where
  distinct := h.distinct
  below := h.below
  logBelow := h.logBelow
  pending x hx := h.pending x (hheld.subset hx)
  once := nodup_of_subperm h.once hheld
  front x hx := h.front x (hheld.subset hx)
  logFront := h.logFront
  ordered := h.ordered

theorem inv_crash {s : State} (h : Inv s) {i : ℕ} {d : Drain} (hd : s.drains[i]? = some d) :
    Inv { s with drains := s.drains.set i { d with current := none, rows := [] } } := by
  refine h.fewer (subperm_set hd ?_)
  exact List.nil_subperm

theorem inv_answer {s : State} (h : Inv s) {i : ℕ} {d : Drain} (hd : s.drains[i]? = some d) {r : OutboxRow}
    (hr : d.current = some (r, none)) (ok : Bool) :
    Inv { s with drains := s.drains.set i { d with current := some (r, some ok) } } := by
  refine h.fewer (subperm_set hd ?_)
  simp only [Drain.held, hr]
  exact List.Subperm.refl _

theorem inv_insert {s : State} (h : Inv s) (userId sourceId text : String) (trusted : Bool) (stamp : Option Id)
    (now : Time) : Inv (insert userId sourceId text trusted stamp now s) := by
  have hlate {x : OutboxRow} (hx : Front s x) (hle : x.id ≤ s.seq) {e : OutboxRow} (he : e.id = s.seq + 1) :
      Front { s with uncommitted := s.uncommitted ++ [e] } x := by
    refine ⟨hx.1, fun e' he' huser => ?_⟩
    rcases List.mem_append.mp he' with he' | he'
    · exact hx.2 e' he' huser
    · rw [List.mem_singleton.mp he', he]
      omega
  have hheld {x : OutboxRow} (hx : x ∈ holds s) : x.id ≤ s.seq := by
    obtain ⟨r, hr, hid, -⟩ := h.pending x hx
    rw [← hid]
    exact h.below r (List.mem_append_left _ hr)
  unfold insert
  split_ifs
  · exact h
  · exact {
      distinct := h.distinct
      below := fun r hr => Nat.le_succ_of_le (h.below r hr)
      logBelow := fun x hx => Nat.le_succ_of_le (h.logBelow x hx)
      pending := h.pending, once := h.once, front := h.front, logFront := h.logFront, ordered := h.ordered }
  · simp only
    refine {
      distinct := ?_, below := ?_, logBelow := fun x hx => Nat.le_succ_of_le (h.logBelow x hx)
      pending := h.pending, once := h.once, front := fun x hx => hlate (h.front x hx) (hheld hx) rfl
      logFront := fun x hx => hlate (h.logFront x hx) (h.logBelow x hx) rfl, ordered := h.ordered }
    · rw [← List.append_assoc]
      refine keyed_append.mpr ⟨h.distinct, by simp [Keyed], ?_⟩
      intro r hr e he
      have := h.below r hr
      rw [List.mem_singleton.mp he]
      show r.id ≠ s.seq + 1
      omega
    · intro r hr
      rw [← List.append_assoc] at hr
      rcases List.mem_append.mp hr with hr | hr
      · exact Nat.le_succ_of_le (h.below r hr)
      · obtain rfl := List.mem_singleton.mp hr
        exact Nat.le_refl (s.seq + 1)

theorem Front.within {s : State} {x : OutboxRow} (h : Front s x) {rows uncommitted : List OutboxRow}
    (hrows : ∀ e ∈ rows, e ∈ s.rows ∨ e ∈ s.uncommitted) (huncommitted : ∀ e ∈ uncommitted, e ∈ s.uncommitted) :
    Front { s with rows, uncommitted } x := by
  refine ⟨fun e he huser hlt => ?_, fun e he => h.2 e (huncommitted e he)⟩
  rcases hrows e he with he | he
  · exact h.1 e he huser hlt
  · have := h.2 e he huser
    omega

theorem inv_commit {s : State} (h : Inv s) (id : ℕ) : Inv (step s (.commit id)) := by
  have hfront {x : OutboxRow} (hx : Front s x) : Front (step s (.commit id)) x := by
    refine hx.within (fun e he => ?_) fun e he => (mem_deleteWhere.mp he).1
    rcases List.mem_append.mp he with he | he
    · exact Or.inl he
    · exact Or.inr (List.mem_of_mem_filter he)
  have hperm : ((step s (.commit id)).rows ++ (step s (.commit id)).uncommitted).Perm (s.rows ++ s.uncommitted) := by
    simp only [step, deleteWhere, List.append_assoc, decide_not]
    exact (List.filter_append_perm (fun r => decide (r.id = id)) s.uncommitted).append_left s.rows
  exact {
    distinct := ((hperm.map _).nodup_iff).mpr h.distinct
    below := fun r hr => h.below r (hperm.subset hr)
    logBelow := h.logBelow
    pending := fun x hx => by
      obtain ⟨r, hr, hrest⟩ := h.pending x hx
      exact ⟨r, List.mem_append_left _ hr, hrest⟩
    once := h.once
    front := fun x hx => hfront (h.front x hx)
    logFront := fun x hx => hfront (h.logFront x hx)
    ordered := h.ordered }

theorem inv_abort {s : State} (h : Inv s) (id : ℕ) : Inv (step s (.abort id)) := by
  have hfront {x : OutboxRow} (hx : Front s x) : Front (step s (.abort id)) x :=
    hx.within (fun e he => Or.inl he) fun e he => (mem_deleteWhere.mp he).1
  have hsub : (s.rows ++ deleteWhere (fun r => r.id = id) s.uncommitted).Sublist (s.rows ++ s.uncommitted) :=
    List.filter_sublist.append_left _
  exact {
    distinct := h.distinct.sublist (hsub.map _)
    below := fun r hr => h.below r (hsub.subset hr)
    logBelow := h.logBelow
    pending := h.pending
    once := h.once
    front := fun x hx => hfront (h.front x hx)
    logFront := fun x hx => hfront (h.logFront x hx)
    ordered := h.ordered }

/-! ### Leases -/

theorem mem_leaseRows {now : Time} {limit : ℕ} {locked : List ℕ} {rows : List OutboxRow} {r : OutboxRow}
    (h : r ∈ leaseRows now limit locked rows) : r ∈ rows ∧ Leasable now rows r := by
  have hsort := (List.mergeSort_perm _ _).mem_iff.mp (List.mem_of_mem_take h)
  simp only [List.mem_filter, decide_eq_true_eq] at hsort
  exact ⟨hsort.1, hsort.2.1⟩

theorem leaseRows_ids {now : Time} {limit : ℕ} {locked : List ℕ} {rows : List OutboxRow}
    (h : Keyed OutboxRow.id rows) : ((leaseRows now limit locked rows).map OutboxRow.id).Nodup := by
  refine List.Nodup.sublist ((List.take_sublist ..).map _) ?_
  rw [((List.mergeSort_perm _ _).map OutboxRow.id).nodup_iff]
  exact h.sublist (List.filter_sublist.map _)

theorem mem_leased {now : Time} {ids : List ℕ} {rows : List OutboxRow} {e : OutboxRow}
    (h : e ∈ updateWhere (fun r => r.id ∈ ids) (leased now) rows) :
    ∃ e' ∈ rows, e'.id = e.id ∧ e'.userId = e.userId ∧ e'.status = e.status := by
  obtain ⟨e', he', rfl⟩ := mem_updateWhere.mp h
  refine ⟨e', he', ?_⟩
  split_ifs
  all_goals exact ⟨rfl, rfl, rfl⟩

theorem leased_of_mem {now : Time} {ids : List ℕ} {rows : List OutboxRow} {e : OutboxRow} (h : e ∈ rows) :
    ∃ e' ∈ updateWhere (fun r => r.id ∈ ids) (leased now) rows,
      e'.id = e.id ∧ e'.userId = e.userId ∧ e'.status = e.status := by
  refine ⟨_, mem_updateWhere.mpr ⟨e, h, rfl⟩, ?_⟩
  split_ifs
  all_goals exact ⟨rfl, rfl, rfl⟩

theorem Front.leased {s : State} {x : OutboxRow} (h : Front s x) (now : Time) (ids : List ℕ)
    (drains : List Drain) : Front
      { s with rows := updateWhere (fun r => r.id ∈ ids) (leased now) s.rows, drains } x := by
  refine ⟨fun e he huser hlt => ?_, h.2⟩
  obtain ⟨e', he', hid, huser', hstatus⟩ := mem_leased he
  rw [← hstatus]
  exact h.1 e' he' (huser'.trans huser) (by omega)

theorem inv_lease {s : State} (h : Inv s) {now : Time} {limit : ℕ} {locked : List ℕ}
    (hc : Exclusive s (.lease now limit locked)) : Inv (lease now limit locked s) := by
  have hids : ∀ r, (leased now r).id = r.id := fun r => rfl
  have hholds : holds (lease now limit locked s) =
      holds s ++ (leaseRows now limit locked s.rows).map (leased now) := by
    simp [holds, lease, Drain.held]
  have hfront {x : OutboxRow} (hx : Front s x) : Front (lease now limit locked s) x := hx.leased ..
  have hnew : ∀ r ∈ leaseRows now limit locked s.rows, Front s (leased now r) := by
    intro r hr
    obtain ⟨-, -, -, hfirst⟩ := mem_leaseRows hr
    refine ⟨fun e he huser hlt hpending => hfirst ⟨e, he, huser, hpending, hlt⟩, (hc r hr).2⟩
  refine {
    distinct := ?_
    below := ?_
    logBelow := h.logBelow
    pending := ?_
    once := ?_
    front := ?_
    logFront := fun x hx => hfront (h.logFront x hx)
    ordered := h.ordered }
  · have hmap : (updateWhere (fun r => r.id ∈ (leaseRows now limit locked s.rows).map OutboxRow.id) (leased now)
        s.rows ++ s.uncommitted).map OutboxRow.id = (s.rows ++ s.uncommitted).map OutboxRow.id := by
      rw [List.map_append, List.map_append, map_updateWhere fun r _ => hids r]
    rw [Keyed, lease, hmap]
    exact h.distinct
  · intro r hr
    rcases List.mem_append.mp hr with hr | hr
    · obtain ⟨r', hr', hid, -⟩ := mem_leased hr
      rw [← hid]
      exact h.below r' (List.mem_append_left _ hr')
    · exact h.below r (List.mem_append_right _ hr)
  · intro x hx
    have hold : Pending s x := by
      rw [hholds] at hx
      rcases List.mem_append.mp hx with hx | hx
      · exact h.pending x hx
      · obtain ⟨r, hr, rfl⟩ := List.mem_map.mp hx
        obtain ⟨hmem, hpending, -⟩ := mem_leaseRows hr
        exact ⟨r, hmem, rfl, rfl, hpending⟩
    obtain ⟨r, hr, hid, huser, hstatus⟩ := hold
    obtain ⟨r', hr', hid', huser', hstatus'⟩ := leased_of_mem hr
    exact ⟨r', hr', hid'.trans hid, huser'.trans huser, hstatus'.trans hstatus⟩
  · rw [hholds, List.map_append, List.nodup_append]
    refine ⟨h.once, ?_, ?_⟩
    · rw [List.map_map]
      exact leaseRows_ids h.distinctRows
    · intro i hi j hj hij
      obtain ⟨x, hx, rfl⟩ := List.mem_map.mp hi
      obtain ⟨y, hy, rfl⟩ := List.mem_map.mp hj
      obtain ⟨r, hr, rfl⟩ := List.mem_map.mp hy
      obtain ⟨d, hd, hheld⟩ := List.mem_flatMap.mp hx
      exact (hc r hr).1 d hd x hheld hij
  · intro x hx
    rw [hholds] at hx
    rcases List.mem_append.mp hx with hx | hx
    · exact hfront (h.front x hx)
    · obtain ⟨r, hr, rfl⟩ := List.mem_map.mp hx
      exact hfront (hnew r hr)

/-! ### Deliveries -/

theorem begun_eq {s : State} {i row : ℕ} {r : OutboxRow} (h : begun s (.deliver i row) = some r) :
    ∃ d, s.drains[i]? = some d ∧ d.current = none ∧ d.rows[row]? = some r := by
  simp only [begun] at h
  split at h
  · cases h
  · rename_i d hd
    split_ifs at h with hcurrent
    exact ⟨d, hd, by simpa using hcurrent, h⟩

theorem deliver_of_begun {s : State} {i row : ℕ} {r : OutboxRow} {d : Drain} (hd : s.drains[i]? = some d)
    (hcurrent : d.current = none) (hr : d.rows[row]? = some r) : deliver i row s =
      { s with
        drains := s.drains.set i { d with current := some (r, none), rows := d.rows.eraseIdx row }
        log := s.log ++ [r] } := by
  simp only [deliver, hd, hcurrent, hr]

theorem deliver_of_none {s : State} {i row : ℕ} (h : begun s (.deliver i row) = none) : deliver i row s = s := by
  simp only [begun] at h
  simp only [deliver]
  split at h
  · rfl
  · rename_i d hd
    cases hcurrent : d.current with
    | some c => rfl
    | none =>
      rw [hcurrent] at h
      simp only [Option.isSome_none, Bool.false_eq_true, if_false] at h
      rw [h]

theorem held_of_begun {s : State} {c : Action} {r : OutboxRow} (h : begun s c = some r) : r ∈ holds s := by
  cases c with
  | deliver i row =>
    obtain ⟨d, hd, -, hr⟩ := begun_eq h
    refine List.mem_flatMap.mpr ⟨d, List.mem_of_getElem? hd, ?_⟩
    exact List.mem_append_right _ (List.mem_of_getElem? hr)
  | _ => cases h

theorem le_of_delivered {s : State} (h : Inv s) {r x : OutboxRow} (hr : r ∈ holds s) (hx : x ∈ s.log)
    (huser : x.userId = r.userId) : x.id ≤ r.id := by
  by_contra hlt
  obtain ⟨e, he, hid, heuser, hpending⟩ := h.pending r hr
  exact (h.logFront x hx).1 e he (heuser.trans huser.symm) (by omega) hpending

theorem inv_deliver {s : State} (h : Inv s) (i row : ℕ) : Inv (deliver i row s) := by
  cases hbegun : begun s (.deliver i row) with
  | none =>
    rw [deliver_of_none hbegun]
    exact h
  | some r =>
    have hmem := held_of_begun hbegun
    obtain ⟨d, hd, hcurrent, hr⟩ := begun_eq hbegun
    rw [deliver_of_begun hd hcurrent hr]
    have hheld : (s.drains.set i { d with current := some (r, none), rows := d.rows.eraseIdx row }).flatMap
        Drain.held |>.Subperm (holds s) := by
      obtain ⟨hlt, hget⟩ := List.getElem?_eq_some_iff.mp hr
      refine subperm_set hd ?_
      simp only [Drain.held, hcurrent, Option.map_some, Option.map_none, Option.toList_some, Option.toList_none,
        List.nil_append, List.singleton_append]
      rw [← hget]
      exact (List.getElem_cons_eraseIdx_perm hlt).subperm
    have hs := h.fewer hheld
    exact { hs with
      logBelow := fun x hx => by
        rcases List.mem_append.mp hx with hx | hx
        · exact h.logBelow x hx
        · rw [List.mem_singleton.mp hx]
          obtain ⟨e, he, hid, -⟩ := h.pending r hmem
          rw [← hid]
          exact h.below e (List.mem_append_left _ he)
      logFront := fun x hx => by
        rcases List.mem_append.mp hx with hx | hx
        · exact h.logFront x hx
        · rw [List.mem_singleton.mp hx]
          exact h.front r hmem
      ordered := by
        refine List.pairwise_append.mpr ⟨h.ordered, List.pairwise_singleton _ _, ?_⟩
        intro x hx y hy huser
        rw [List.mem_singleton.mp hy] at huser ⊢
        exact le_of_delivered h hmem hx huser }

/-! ### What has come of a delivery -/

section Settle
variable {s : State} {i : ℕ} {d : Drain} {r : OutboxRow} {ok : Bool} {f : OutboxRow → OutboxRow}

theorem pending_of_current (h : Inv s) (hd : s.drains[i]? = some d) (hr : d.current = some (r, some ok)) :
    r ∈ holds s ∧ ∀ e ∈ s.rows, e.id = r.id → e.status = .pending := by
  have hmem : r ∈ holds s := by
    refine List.mem_flatMap.mpr ⟨d, List.mem_of_getElem? hd, ?_⟩
    simp [Drain.held, hr]
  refine ⟨hmem, fun e he hid => ?_⟩
  obtain ⟨e', he', hid', -, hpending⟩ := h.pending r hmem
  rwa [h.distinctRows.eq_of_key he he' (hid.trans hid'.symm)]

theorem front_settle (h : Inv s) (hd : s.drains[i]? = some d) (hr : d.current = some (r, some ok))
    (hf : ∀ e, (f e).id = e.id ∧ (f e).userId = e.userId) {x : OutboxRow} (hx : Front s x)
    (drains : List Drain) (stamps : List (Id × String)) :
    Front { s with rows := updateWhere (fun row => row.id = r.id) f s.rows, drains, stamps } x := by
  refine ⟨fun e he huser hlt => ?_, hx.2⟩
  obtain ⟨e', he', rfl⟩ := mem_updateWhere.mp he
  split_ifs at huser hlt ⊢ with hid
  · rw [(hf e').2] at huser
    rw [(hf e').1] at hlt
    exact absurd ((pending_of_current h hd hr).2 e' he' hid) (hx.1 e' he' huser hlt)
  · exact hx.1 e' he' huser hlt

theorem inv_settle (h : Inv s) (hd : s.drains[i]? = some d) (hr : d.current = some (r, some ok))
    (hf : ∀ e, (f e).id = e.id ∧ (f e).userId = e.userId) {d' : Drain} (hd' : d'.held = d.rows)
    (stamps : List (Id × String)) : Inv
      { s with
        rows := updateWhere (fun row => row.id = r.id) f s.rows
        drains := s.drains.set i d'
        stamps } := by
  obtain ⟨others, hold, hset⟩ := flatMap_set Drain.held hd
  have hnew := hset d'
  have hheld : d.held = r :: d.rows := by simp [Drain.held, hr]
  rw [hheld] at hold
  rw [hd'] at hnew
  have hold : (holds s).Perm (r :: (d.rows ++ others)) := hold
  have honce : ((r :: (d.rows ++ others)).map OutboxRow.id).Nodup := (hold.map _).nodup_iff.mp h.once
  obtain ⟨hfresh, honce⟩ := List.nodup_cons.mp honce
  have hrest {x : OutboxRow} (hx : x ∈ (s.drains.set i d').flatMap Drain.held) : x ∈ holds s ∧ x.id ≠ r.id := by
    have hx := hnew.subset hx
    refine ⟨hold.symm.subset (List.mem_cons_of_mem r hx), fun hid => hfresh ?_⟩
    rw [← hid]
    exact List.mem_map_of_mem hx
  have hfront {x : OutboxRow} (hx : Front s x) := front_settle h hd hr hf hx (s.drains.set i d') stamps
  exact {
    distinct := by
      have hmap := map_updateWhere (t := s.rows) (p := fun row => row.id = r.id) (f := f) (g := OutboxRow.id)
        fun e _ => (hf e).1
      rw [Keyed, List.map_append, hmap, ← List.map_append]
      exact h.distinct
    below := fun e he => by
      rcases List.mem_append.mp he with he | he
      · obtain ⟨e', he', rfl⟩ := mem_updateWhere.mp he
        have hle := h.below e' (List.mem_append_left _ he')
        split_ifs
        · rw [(hf e').1]
          exact hle
        · exact hle
      · exact h.below e (List.mem_append_right _ he)
    logBelow := h.logBelow
    pending := fun x hx => by
      obtain ⟨hmem, hne⟩ := hrest hx
      obtain ⟨e, he, hid, huser, hpending⟩ := h.pending x hmem
      have hother : ¬ e.id = r.id := fun heq => hne (hid.symm.trans heq)
      exact ⟨e, mem_updateWhere.mpr ⟨e, he, if_neg hother⟩, hid, huser, hpending⟩
    once := ((hnew.map _).nodup_iff).mpr honce
    front := fun x hx => hfront (h.front x (hrest hx).1)
    logFront := fun x hx => hfront (h.logFront x hx)
    ordered := h.ordered }

theorem done_settle (h : Inv s) (hd : s.drains[i]? = some d) (hr : d.current = some (r, some ok)) {e : OutboxRow}
    (he : e ∈ s.rows) (hdone : e.status = .done) :
    e ∈ updateWhere (fun row => row.id = r.id) f s.rows := by
  refine mem_updateWhere.mpr ⟨e, he, if_neg fun hid => ?_⟩
  rw [(pending_of_current h hd hr).2 e he hid] at hdone
  cases hdone

end Settle

theorem inv_finish {s : State} (h : Inv s) {i : ℕ} {d : Drain} {r : OutboxRow} {ok : Bool}
    (hd : s.drains[i]? = some d) (hr : d.current = some (r, some ok)) : Inv (finish i d r ok s) := by
  unfold finish
  split_ifs
  all_goals
    refine inv_settle h hd hr (fun e => ?_) ?_ _
    · exact ⟨rfl, rfl⟩
    · rfl

/-! ### Runs -/

theorem inv_step {s : State} {c : Action} (h : Inv s) (hc : Exclusive s c) : Inv (step s c) := by
  cases c with
  | insert userId sourceId text trusted stamp now => exact inv_insert h ..
  | commit id => exact inv_commit h id
  | abort id => exact inv_abort h id
  | lease now limit locked => exact inv_lease h hc
  | deliver i row => exact inv_deliver h i row
  | answer i ok =>
    simp only [step]
    split
    · exact h
    · rename_i d hd
      split
      · rename_i r hr
        exact inv_answer h hd hr ok
      · exact h
  | finish i =>
    simp only [step]
    split
    · exact h
    · rename_i d hd
      split
      · rename_i r ok hr
        exact inv_finish h hd hr
      · exact h
  | crash i =>
    simp only [step]
    split
    · exact h
    · rename_i d hd
      exact inv_crash h hd

theorem afterEarlier {s : State} {c : Action} (h : Inv s) : AfterEarlier s c := by
  intro r hr e he huser hlt
  have hne := (h.front r (held_of_begun hr)).1 e he huser hlt
  cases hstatus : e.status with
  | pending => exact absurd hstatus hne
  | done => exact Or.inl rfl
  | dead => exact Or.inr rfl

theorem doneStays {s : State} {c : Action} (h : Inv s) : DoneStays s c := by
  intro r hr hdone
  have hsame {rows : List OutboxRow} (hmem : r ∈ rows) : ∃ r' ∈ rows, r'.id = r.id ∧ r'.status = .done :=
    ⟨r, hmem, rfl, hdone⟩
  cases c with
  | insert userId sourceId text trusted stamp now =>
    refine hsame ?_
    simp only [step, insert]
    split_ifs
    all_goals exact hr
  | commit id => exact hsame (List.mem_append_left _ hr)
  | abort id => exact hsame hr
  | lease now limit locked =>
    obtain ⟨r', hr', hid, -, hstatus⟩ := leased_of_mem hr
    exact ⟨r', hr', hid, hstatus.trans hdone⟩
  | deliver i row =>
    refine hsame ?_
    simp only [step, deliver]
    split
    · exact hr
    · split
      all_goals exact hr
  | answer i ok =>
    refine hsame ?_
    simp only [step]
    split
    · exact hr
    · split
      all_goals exact hr
  | finish i =>
    refine hsame ?_
    simp only [step]
    split
    · exact hr
    · rename_i d hd
      split
      · rename_i x ok hx
        simp only [finish]
        split_ifs
        all_goals exact done_settle h hd hx hr hdone
      · exact hr
  | crash i =>
    refine hsame ?_
    simp only [step]
    split
    all_goals exact hr

theorem Inv.sendsAlone {s : State} (h : Inv s) : Alone s := by
  refine h.once.sublist ?_
  rw [holds]
  induction s.drains with
  | nil => exact List.Sublist.refl _
  | cons d drains ih =>
    rw [List.flatMap_cons, List.map_append, List.filterMap_cons]
    cases hsending : d.sending with
    | none => exact ih.trans (List.sublist_append_right _ _)
    | some r =>
      have hheld : r ∈ d.held := by
        unfold Drain.sending at hsending
        split at hsending
        · rename_i r' hcurrent
          cases hsending
          simp [Drain.held, hcurrent]
        · cases hsending
      exact (List.singleton_sublist.mpr (List.mem_map_of_mem hheld)).append ih

/-- **The order of the outbox.** Over rows that are written and committed, calls that overlap, deliveries that
succeed, fail or last longer than a lease, and calls that break off, in any order: if no call leases a row that
another still holds, or before an earlier row of its user is committed, the rows of each user are delivered in
their order, each after the earlier ones are done or dead, a row that is done stays so, and no two calls deliver
the same row. -/
theorem delivered_in_order (cs : List Action) (h : Along step Exclusive {} cs) : InOrder cs := by
  refine ⟨along_of_inv (fun _ _ => inv_step) (fun s c hi _ => ⟨afterEarlier hi, doneStays hi⟩) inv_init h, ?_⟩
  rintro pre post rfl
  have hinv : Inv (run step {} pre) := inv_run (fun _ _ => inv_step) inv_init (along_append.mp h).1
  exact ⟨hinv.ordered, hinv.sendsAlone⟩

/-- Two rows of one user, the first of which fails once; a second call comes while the first is at work. -/
def retried : List Action :=
  [.insert "u" "a" "claim" false none 0, .commit 1, .insert "u" "b" "decision" true none 0, .commit 2,
    .lease 0 20 [], .deliver 0 0, .lease (minutes 1) 20 [], .answer 0 false, .finish 0,
    .lease (minutes 2) 20 [], .deliver 2 0, .answer 2 true, .finish 2, .lease (minutes 3) 20 [], .deliver 3 0,
    .answer 3 true, .finish 3]

theorem retried_in_order : Along step Exclusive {} retried ∧ InOrder retried :=
  have h : Along step Exclusive {} retried := by decide +kernel
  ⟨h, delivered_in_order retried h⟩

/-- A delivery that lasts longer than its lease: a second call delivers the row, and then the first fails. -/
def slow : List Action :=
  [.insert "u" "a" "claim" false none 0, .commit 1, .lease 0 20 [], .deliver 0 0, .lease (minutes 6) 20 [],
    .deliver 1 0, .answer 1 true, .finish 1, .answer 0 false]

/-- The row that was done is pending again. -/
theorem done_then_pending : ¬ ∀ cs, InOrder cs := by
  intro h
  have hslow := (h (slow ++ [.finish 0])).1
  rw [along_append] at hslow
  have hdone : DoneStays (run step {} slow) (.finish 0) := hslow.2.1.2
  revert hdone
  decide_cbv

end Smara.Server.Outbox
