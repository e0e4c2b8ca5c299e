import Mathlib.Data.List.Sort
import Smara.Lib.Feed
import Smara.Session.Numbers

/-! # Pages of the journal

`SessionProtocol.snapshot` reads the journal of a thread page by page. `Paging` is a client that keeps
the cursor it was given, while other calls write: what it has been given is the journal of the thread
up to its cursor (`lossless_after`). -/

namespace Smara.Session.Pages

open Lib.Machine Lib.Feed
open TaskStore.Schema (Uuid Time)
open Goals.Schema (Uuids)
open Session.Schema Session.Protocol Session.Steps
open Session.Links Session.Endings Session.Numbers

variable {uuids : Uuids} {threadId : String} {db : SessionDb} {host : Host}

/-! ### `snapshot` -/

/-- What `snapshot` returns. -/
structure View where
  threadId : String
  turns : List Turn
  items : List Item
  canResume : Bool
  pendingApprovals : List Approval
  events : List Event
  cursor : ℕ
  hasMore : Bool

def journal (threadId : String) (db : SessionDb) : List Event :=
  db.events.filter fun e => e.threadId = threadId

/-- `SELECT COALESCE(MAX(sequence),0)` -/
def latest (threadId : String) (db : SessionDb) : ℕ :=
  ((journal threadId db).map Event.sequence).foldr max 0

/-- `SELECT … WHERE thread_id=? AND sequence>? ORDER BY sequence LIMIT ?` -/
def rows (threadId : String) (after limit : ℕ) (db : SessionDb) : List Event :=
  ((db.events.filter fun e => e.threadId = threadId ∧ after < e.sequence).insertionSort
    fun e e' => e.sequence ≤ e'.sequence).take limit

def recentTurns (threadId : String) (db : SessionDb) : List Turn :=
  ((db.turns.filter fun t => t.threadId = threadId).insertionSort
    fun t t' => t'.createdAt ≤ t.createdAt).take 50

def currentTurn (turns : List Turn) : Option Turn :=
  (turns.find? fun t => t.status.Active).or turns.head?

def canResume (host : Host) (current : Option Turn) (items : List Item) : Bool :=
  match current with
  | none => false
  | some t =>
    (t.status ≠ .completed ∧ t.status ≠ .cancelled) ∧ ¬ (t.status.Active ∧ ¬ Orphaned host t) ∧
      ∃ i ∈ items, i.kind = "execution_checkpoint"

/-- The reading transaction of **`snapshot`**. -/
def viewed (host : Host) (threadId : String) (after limit : ℤ) (db : SessionDb) : Except Err View :=
  let after := after.toNat
  let limit := (max 1 (min limit 500)).toNat
  if latest threadId db < after then
    .error (.valueError "Event cursor is ahead of this thread's journal")
  else
    let rows := rows threadId after limit db
    let turns := recentTurns threadId db
    let current := currentTurn turns
    let items := (db.items.filter fun i => ∃ t ∈ current, i.turnId = t.id).take 500
    let cursor := cursorAfter Event.sequence after rows
    .ok
      { threadId
        turns
        items
        canResume := canResume host current items
        pendingApprovals := db.approvals.filter fun a =>
          (∃ t ∈ current, a.turnId = t.id) ∧ a.decision = .pending
        events := rows
        cursor
        hasMore := cursor < latest threadId db }

/-- **`snapshot`**: the session is looked up before the transaction. -/
def snapshot (host : Host) (threadId : String) (after limit : ℤ) (db₁ db₂ : SessionDb) :
    Except Err View :=
  match db₁.session threadId with
  | none => .error (.keyError threadId)
  | some _ => viewed host threadId after limit db₂

/-! ### A client that pages -/

/-- The world with a client: whether its call has found the session, its cursor, and the events that it
has been given. -/
structure Paging where
  world : World := {}
  found : Bool := false
  cursor : ℕ := 0
  seen : List Event := []

/-- A step of another call, or a step of a `snapshot` of the client. -/
inductive Call
  | step (op : Op)
  | look
  | page (host : Host) (limit : ℤ)

def nextPage (uuids : Uuids) (threadId : String) (c : Paging) : Call → Paging
  | .step op => { c with world := next uuids c.world op }
  | .look => { c with found := (c.world.db.session threadId).isSome }
  | .page host limit =>
    if c.found then
      match viewed host threadId c.cursor limit c.world.db with
      | .ok v => { c with found := false, cursor := v.cursor, seen := c.seen ++ v.events }
      | .error _ => { c with found := false }
    else c

/-! ### Reading in order -/

theorem journal_ordered (hn : Numbered db) :
    (journal threadId db).Pairwise fun e e' => e.sequence < e'.sequence := hn.ordered.filter _

theorem rows_eq (hn : Numbered db) (after limit : ℕ) :
    rows threadId after limit db = page Event.sequence limit after (journal threadId db) := by
  have hfilter : (db.events.filter fun e => e.threadId = threadId ∧ after < e.sequence) =
      (journal threadId db).filter fun e => after < e.sequence := by
    unfold journal
    rw [List.filter_filter]
    refine List.filter_congr fun e _ => ?_
    rw [Bool.decide_and, Bool.and_comm]
  have hordered : ((journal threadId db).filter fun e => after < e.sequence).Pairwise
      fun e e' => e.sequence ≤ e'.sequence :=
    ((journal_ordered hn).filter _).imp fun h => h.le
  unfold rows page
  rw [hfilter, hordered.insertionSort_eq]

theorem le_latest {e : Event} (he : e ∈ journal threadId db) : e.sequence ≤ latest threadId db := by
  unfold latest
  have hmem : e.sequence ∈ (journal threadId db).map Event.sequence := List.mem_map_of_mem he
  generalize (journal threadId db).map Event.sequence = ns at hmem
  induction ns with
  | nil => cases hmem
  | cons n ns ih =>
    rw [List.foldr_cons]
    rcases List.mem_cons.mp hmem with rfl | hmem
    · exact le_max_left _ _
    · exact (ih hmem).trans (le_max_right _ _)

theorem cursor_le_latest {after limit : ℕ} (h : after ≤ latest threadId db) (hn : Numbered db) :
    cursorAfter Event.sequence after (rows threadId after limit db) ≤ latest threadId db := by
  unfold cursorAfter
  cases hlast : (rows threadId after limit db).getLast? with
  | none => exact h
  | some e =>
    have hmem := List.mem_of_getLast? hlast
    rw [rows_eq hn] at hmem
    exact le_latest (List.mem_filter.mp (List.mem_of_mem_take hmem)).1

/-! ### Replay -/

/-- What holds at every moment of a client's paging. -/
structure Lossless (threadId : String) (c : Paging) : Prop where
  /-- the client has the journal of the thread up to its cursor -/
  seen : c.seen = upTo Event.sequence c.cursor (journal threadId c.world.db)
  ordered : c.seen.Pairwise fun e e' => e.sequence < e'.sequence
  /-- there is no more only at the end of the journal -/
  last : ∀ host after limit v, viewed host threadId after limit c.world.db = .ok v →
    v.hasMore = false → v.cursor = latest threadId c.world.db
  ahead : ∀ host (after limit : ℤ), latest threadId c.world.db < after →
    viewed host threadId after limit c.world.db =
      .error (.valueError "Event cursor is ahead of this thread's journal")

/-- The invariant: the cursor is a number that was given. -/
structure Paged (threadId : String) (c : Paging) : Prop where
  settled : Settled c.world
  numbered : Numbered c.world.db
  cursor : c.cursor ≤ c.world.db.eventSeq
  seen : c.seen = upTo Event.sequence c.cursor (journal threadId c.world.db)

theorem latest_le (hn : Numbered db) : latest threadId db ≤ db.eventSeq := by
  unfold latest
  have hall : ∀ n ∈ (journal threadId db).map Event.sequence, n ≤ db.eventSeq := by
    intro n hmem
    obtain ⟨e, he, rfl⟩ := List.mem_map.mp hmem
    exact hn.upTo e (List.mem_filter.mp he).1
  generalize (journal threadId db).map Event.sequence = ns at hall
  induction ns with
  | nil => exact Nat.zero_le _
  | cons n ns ih =>
    rw [List.foldr_cons]
    exact max_le (hall n List.mem_cons_self) (ih fun m hm => hall m (List.mem_cons_of_mem n hm))

theorem paged_next {c : Paging} (h : Paged threadId c) (call : Call) :
    Paged threadId (nextPage uuids threadId c call) := by
  cases call with
  | step op =>
    have happ : Appends c.world.db (next uuids c.world op).db := appends_next h.settled.linked op
    obtain ⟨es, he, hes⟩ := happ.events
    refine ⟨settled_next h.settled op, happ.numbered h.numbered, h.cursor.trans happ.seq, ?_⟩
    have hjournal : journal threadId (next uuids c.world op).db =
        journal threadId c.world.db ++ es.filter fun e => e.threadId = threadId := by
      unfold journal
      rw [he, List.filter_append]
    change c.seen = upTo Event.sequence c.cursor (journal threadId (next uuids c.world op).db)
    rw [h.seen, hjournal, upTo_append fun e hmem => ?_]
    exact h.cursor.trans_lt (hes.above e (List.mem_filter.mp hmem).1)
  | look => exact ⟨h.settled, h.numbered, h.cursor, h.seen⟩
  | page host limit =>
    unfold nextPage
    dsimp only
    split_ifs
    · split
      · next v hv =>
        unfold viewed at hv
        dsimp only at hv
        split_ifs at hv with hahead
        have hle : c.cursor ≤ latest threadId c.world.db := by omega
        obtain rfl := Except.ok.inj hv
        refine ⟨h.settled, h.numbered, ?_, ?_⟩
        · exact (cursor_le_latest hle h.numbered).trans (latest_le h.numbered)
        · change c.seen ++ rows threadId c.cursor _ c.world.db = _
          rw [h.seen, rows_eq h.numbered, upTo_append_page (journal_ordered h.numbered)]
          change _ = upTo Event.sequence (cursorAfter _ c.cursor (rows threadId c.cursor _ _)) _
          rw [rows_eq h.numbered]
      · exact ⟨h.settled, h.numbered, h.cursor, h.seen⟩
    · exact h

theorem paged_after (uuids : Uuids) (threadId : String) (calls : List Call) :
    Paged threadId (run (nextPage uuids threadId) {} calls) := by
  refine inv_run (I := Paged threadId) (G := fun _ _ => True) (fun c call h _ => paged_next h call)
    ⟨settled_empty, ⟨List.Pairwise.nil, ?_, ?_⟩, Nat.le_refl _, rfl⟩ (along_of_forall fun _ _ => trivial)
  · simp
  · simp

theorem lossless_of_paged {c : Paging} (h : Paged threadId c) : Lossless threadId c := by
  refine ⟨h.seen, ?_, fun host after limit v hv hmore => ?_, fun host after limit hahead => ?_⟩
  · rw [h.seen]
    exact (journal_ordered h.numbered).filter _
  · unfold viewed at hv
    dsimp only at hv
    split_ifs at hv with hahead
    obtain rfl := Except.ok.inj hv
    have hge := of_decide_eq_false hmore
    have hle : cursorAfter Event.sequence after.toNat
          (rows threadId after.toNat (max 1 (min limit 500)).toNat c.world.db) ≤
        latest threadId c.world.db := cursor_le_latest (Nat.le_of_not_lt hahead) h.numbered
    dsimp only at hge ⊢
    omega
  · unfold viewed
    dsimp only
    rw [if_pos (by omega)]

/-- **Paging is lossless and free of duplicates**, whatever is written between the pages. -/
theorem lossless_after (uuids : Uuids) (threadId : String) (calls : List Call) :
    Lossless threadId (run (nextPage uuids threadId) {} calls) :=
  lossless_of_paged (paged_after uuids threadId calls)

end Smara.Session.Pages
