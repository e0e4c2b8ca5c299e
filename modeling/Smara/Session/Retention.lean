import Smara.Session.Pages
import Smara.Session.Rows

/-! # The bounded events of a session

A session numbers its events by its revision and keeps the last of them. `snapshot` reads the session,
the events and the first event that is kept in turn, and raises if the cursor is before what is kept.

* `retained_after`: the events that are kept have the last numbers up to the revision, each once.
* `snapshot_consecutive`: whatever is written between the reads, the events that a `snapshot` returns
  follow its cursor without a gap. -/

namespace Smara.Session.Retention

open Lib.Machine Lib.Table Lib.Transaction
open TaskStore.Schema (Uuid Time)
open Goals.Schema (Json Uuids)
open Session.Schema Session.Envelope Session.Protocol Session.Steps
open Session.Effects Session.Links Session.Rows

variable {uuids : Uuids} {w w' : World} {op : Op} {db db' : SessionDb} {env : Env} {N : ℕ}
  {id i : String}

/-! ### `snapshot` -/

def stored (id : String) (db : SessionDb) : List SessionEvent :=
  db.sessionEvents.filter fun e => e.sessionId = id

def events (host : Host) (id : String) (after limit : ℤ) (db : SessionDb) : List SessionEvent :=
  (((stored id db).filter fun e => after.toNat < e.sequence).insertionSort
    fun e e' => e.sequence ≤ e'.sequence).take (max 1 (min limit host.maxEvents)).toNat

def firstSequence (id : String) (db : SessionDb) : ℕ :=
  ((stored id db).map SessionEvent.sequence).min?.getD 0

/-- What `snapshot` returns. -/
structure Snapshot where
  session : RuntimeSession
  events : List SessionEvent
  cursor : ℕ
  earliestCursor : ℕ
  hasMore : Bool
  reconnectable : Bool
  protocol : Pages.View

/-- **`snapshot`**: five reads, of which each has its own connection. -/
def snapshot (host : Host) (id : String) (after limit : ℤ) (db₁ db₂ db₃ db₄ db₅ : SessionDb) :
    Except Err Snapshot :=
  match db₁.session id with
  | none => .error (.keyError id)
  | some session => do
    let requested := after.toNat
    let events := events host id requested limit db₂
    let first := firstSequence id db₃
    if requested ≠ 0 ∧ first ≠ 0 ∧ requested < first - 1 then
      throw (.valueError ("event cursor " ++ toString requested ++
        " is no longer replayable; earliest is " ++ toString first))
    let cursor := (events.getLast?.map SessionEvent.sequence).getD requested
    let protocol ← Pages.snapshot host id 0 100 db₄ db₅
    return {
      session
      events
      cursor
      earliestCursor := if first ≠ 0 then first - 1 else cursor
      hasMore := ∃ e ∈ events.getLast?, e.sequence < session.revision
      reconnectable := (session.status ≠ .failed ∧ session.status ≠ .cancelled) ∨ events ≠ []
      protocol }

/-! ### Sessions and their events through a step -/

def revision (id : String) (db : SessionDb) : ℕ :=
  match db.session id with
  | none => 0
  | some s => s.revision

/-! ### Retention -/

def kept (N revision : ℕ) : List ℕ := List.range' (revision - N + 1) (revision - (revision - N))

/-- **The last numbers are kept.** -/
def Retained (N : ℕ) (db : SessionDb) : Prop :=
  ∀ id, (stored id db).map SessionEvent.sequence = kept N (revision id db)

theorem kept_succ (N n : ℕ) : (kept N n ++ [n + 1]).filter (fun k => ¬ k ≤ n + 1 - N) = kept N (n + 1) := by
  by_cases h : N ≤ n
  · have hlen : n - (n - N) = N := by omega
    have hlen' : n + 1 - (n + 1 - N) = N := by omega
    have hstart : n + 1 - N = n - N + 1 := by omega
    have hlast : n + 1 = n - N + 1 + N := by omega
    have hall : kept N n ++ [n + 1] = (n - N + 1) :: List.range' (n - N + 2) N := by
      unfold kept
      rw [hlen]
      calc List.range' (n - N + 1) N ++ [n + 1]
          = List.range' (n - N + 1) (N + 1) := by rw [List.range'_1_concat, ← hlast]
        _ = (n - N + 1) :: List.range' (n - N + 2) N := List.range'_succ
    rw [hall, List.filter_cons_of_neg (by simp [hstart])]
    unfold kept
    rw [hlen', hstart]
    refine List.filter_eq_self.mpr fun k hk => ?_
    have hk' := (List.mem_range'_1.mp hk).1
    simp only [decide_not, Bool.not_eq_true', decide_eq_false_iff_not]
    omega
  · have hstart : n + 1 - N = 0 := by omega
    have hzero : n - N = 0 := by omega
    unfold kept
    rw [hzero, hstart]
    simp only [Nat.sub_zero, Nat.zero_add]
    rw [List.range'_1_concat, Nat.add_comm 1 n]
    refine List.filter_eq_self.mpr fun k hk => ?_
    simp only [decide_not, Bool.not_eq_true', decide_eq_false_iff_not]
    rcases List.mem_append.mp hk with hk | hk
    · have hk' := (List.mem_range'_1.mp hk).1
      omega
    · rw [List.mem_singleton.mp hk]
      omega

theorem revision_updSessions {f : RuntimeSession → RuntimeSession} (hid : ∀ s, (f s).id = s.id) :
    revision i (db.updSessions (fun s => s.id = id) f) =
      if i = id then ((db.session id).map fun s => (f s).revision).getD 0 else revision i db := by
  unfold revision
  rw [session_updSessions hid]
  split_ifs
  · cases db.session id <;> rfl
  · rfl

theorem stored_record {seq : ℕ} {kind : String} {payload : Json} :
    stored i (record env id seq kind payload db) =
      if i = id then (stored id db ++ [(⟨id, seq, kind, payload, env.now⟩ : SessionEvent)]).filter
        (fun e => ¬ e.sequence ≤ seq - env.host.maxEvents) else stored i db := by
  unfold stored record deleteWhere
  dsimp only
  rw [List.filter_filter]
  split_ifs with hi
  · subst hi
    have hnew : [(⟨i, seq, kind, payload, env.now⟩ : SessionEvent)].filter
        (fun e => e.sessionId = i) = [⟨i, seq, kind, payload, env.now⟩] := by simp
    rw [← hnew, ← List.filter_append, List.filter_filter, hnew]
    refine List.filter_congr fun e _ => ?_
    by_cases he : e.sessionId = i
    · simp [he]
    · simp [he]
  · rw [List.filter_append]
    have hnone : [(⟨id, seq, kind, payload, env.now⟩ : SessionEvent)].filter (fun e =>
        decide (e.sessionId = i) && decide (¬ (e.sessionId = id ∧
          e.sequence ≤ seq - env.host.maxEvents))) = [] := by
      have hne : ¬ id = i := fun h => hi h.symm
      simp [hne]
    rw [hnone, List.append_nil]
    refine List.filter_congr fun e _ => ?_
    by_cases he : e.sessionId = i
    · have hne : ¬ e.sessionId = id := fun h => hi (he.symm.trans h)
      simp [he, hi]
    · simp [he]

/-- **What a call of the envelope does to the numbers**: the revision does not fall, and the last
numbers stay kept. -/
structure Numbers (N : ℕ) (db db' : SessionDb) : Prop where
  mono : ∀ id, revision id db ≤ revision id db'
  retained : Retained N db → Retained N db'

theorem Numbers.trans {db'' : SessionDb} (h : Numbers N db db') (h' : Numbers N db' db'') :
    Numbers N db db'' :=
  ⟨fun id => (h.mono id).trans (h'.mono id), fun hr => h'.retained (h.retained hr)⟩

theorem numbers_same (hrev : ∀ i, revision i db' = revision i db)
    (he : db'.sessionEvents = db.sessionEvents) : Numbers N db db' := by
  refine ⟨fun i => (hrev i).ge, fun h i => ?_⟩
  have hstored : stored i db' = stored i db := by
    unfold stored
    rw [he]
  rw [hstored, hrev]
  exact h i

theorem numbers_updSessions {f : RuntimeSession → RuntimeSession} (hid : ∀ s, (f s).id = s.id)
    (hrev : ∀ s, (f s).revision = s.revision) :
    Numbers N db (db.updSessions (fun s => s.id = id) f) := by
  refine numbers_same (fun i => ?_) rfl
  rw [revision_updSessions hid]
  split_ifs with hi
  · subst hi
    unfold revision
    cases db.session i with
    | none => rfl
    | some s => exact hrev s
  · rfl

theorem numbers_record {kind : String} {payload : Json} {f : RuntimeSession → RuntimeSession}
    {s : RuntimeSession} (hN : env.host.maxEvents = N) (hs : db.session id = some s)
    (hid : ∀ s, (f s).id = s.id) (hf : (f s).revision = s.revision + 1) :
    Numbers N db
      ((record env id (s.revision + 1) kind payload db).updSessions (fun s => s.id = id) f) := by
  have hsession : (record env id (s.revision + 1) kind payload db).session id = some s := hs
  have hrev : ∀ i, revision i ((record env id (s.revision + 1) kind payload db).updSessions
      (fun s => s.id = id) f) = if i = id then s.revision + 1 else revision i db := by
    intro i
    rw [revision_updSessions hid, hsession, Option.map_some, Option.getD_some, hf]
    rfl
  have hold : revision id db = s.revision := by
    unfold revision
    rw [hs]
  refine ⟨fun i => ?_, fun h i => ?_⟩
  · rw [hrev]
    split_ifs with hi
    · subst hi
      omega
    · exact Nat.le_refl _
  · have hstored : stored i ((record env id (s.revision + 1) kind payload db).updSessions
        (fun s => s.id = id) f) = stored i (record env id (s.revision + 1) kind payload db) := rfl
    rw [hstored, stored_record, hrev]
    split_ifs with hi
    · rw [← kept_succ, ← hold, ← h id, hN]
      have hnew : [revision id db + 1] =
          [(⟨id, revision id db + 1, kind, payload, env.now⟩ : SessionEvent)].map
            SessionEvent.sequence := rfl
      rw [hnew, ← List.map_append, List.filter_map]
      rfl
    · exact h i

theorem numbers_created {request : String} (hs : db.session id = none) :
    Numbers N db { db with sessions := db.sessions ++ [created env id request] } := by
  refine numbers_same (fun i => ?_) rfl
  unfold revision
  rw [session_created hs]
  split_ifs with hi
  · rw [hi, hs]
    rfl
  · rfl

theorem numbers_of_written {starts : Prop} {call : Option Env}
    (hN : ∀ env ∈ call, env.host.maxEvents = N) (h : Written starts call id db db') :
    Numbers N db db' := by
  cases h with
  | same h =>
    rw [h]
    exact numbers_same (fun _ => rfl) rfl
  | new hs h =>
    rw [h]
    exact numbers_created hs
  | row hf hrev h =>
    rw [h]
    exact numbers_updSessions (rewrite_id hf) hrev
  | event henv hs hf hrev h =>
    rw [h]
    exact numbers_record (hN _ henv) hs (rewrite_id hf) hrev

/-- The call keeps `N` events. -/
def Keeps (N : ℕ) (op : Op) : Prop := ∀ env ∈ envOf op, env.host.maxEvents = N

theorem numbers_of_same (h : SameSessions db db') : Numbers N db db' := by
  refine numbers_same (fun i => ?_) h.events
  unfold revision SessionDb.session
  rw [h.sessions]

/-- **Every step keeps the last numbers.** -/
theorem numbers_next (hl : Linked w) (hN : Keeps N op) : Numbers N w.db (next uuids w op).db := by
  have hdoes : Does uuids w op (next uuids w op).db := does_next hl op
  rcases sessions_of_change hdoes.change hl.constraints with he | hsame
  · obtain ⟨id, hw⟩ := written_of_envelops he
    exact numbers_of_written hN hw
  · exact numbers_of_same hsame

theorem numbers_run (hl : Linked w) {ops : List Op} (h : ∀ op ∈ ops, Keeps N op) :
    Numbers N w.db (run (next uuids) w ops).db := by
  have hstep : ∀ w' op, Linked w' ∧ Numbers N w.db w'.db → Keeps N op →
      Linked (next uuids w' op) ∧ Numbers N w.db (next uuids w' op).db :=
    fun w' op hI hN => ⟨linked_next hI.1 op, hI.2.trans (numbers_next hI.1 hN)⟩
  exact (inv_run (G := fun _ op => Keeps N op) hstep ⟨hl, numbers_same (fun _ => rfl) rfl⟩
    (along_of_forall h)).2

theorem retained_after {ops : List Op} (h : ∀ op ∈ ops, Keeps N op) :
    Retained N (after uuids ops).db := by
  refine (numbers_run linked_empty h).retained fun i => ?_
  change [] = kept N 0
  simp [kept]

/-! ### Snapshots -/

theorem events_sequences {host : Host} {after limit : ℤ} (h : Retained N db) :
    (events host id after limit db).map SessionEvent.sequence =
      ((kept N (revision id db)).filter fun k => after.toNat < k).take
        (max 1 (min limit host.maxEvents)).toNat := by
  have hordered : (stored id db).Pairwise fun e e' => e.sequence ≤ e'.sequence := by
    have hlt : ((stored id db).map SessionEvent.sequence).Pairwise (· < ·) := by
      rw [h id]
      exact List.pairwise_lt_range'
    exact (List.pairwise_map.mp hlt).imp fun h => h.le
  unfold events
  rw [(hordered.filter _).insertionSort_eq, List.map_take, ← h id, List.filter_map]
  rfl

theorem filter_kept {n c : ℕ} (h : n - N ≤ c) :
    (kept N n).filter (fun k => c < k) = List.range' (c + 1) (n - c) := by
  by_cases hc : c ≤ n
  · have hsplit : kept N n = List.range' (n - N + 1) (c - (n - N)) ++ List.range' (c + 1) (n - c) := by
      have hstart : c + 1 = n - N + 1 + (c - (n - N)) := by omega
      have hlen : n - (n - N) = c - (n - N) + (n - c) := by omega
      unfold kept
      rw [hlen, hstart, List.range'_append_1]
    have hbelow : (List.range' (n - N + 1) (c - (n - N))).filter (fun k => c < k) = [] := by
      refine List.filter_eq_nil_iff.mpr fun k hk hk' => ?_
      have h1 := (List.mem_range'_1.mp hk).2
      have h2 : c < k := of_decide_eq_true hk'
      omega
    have habove : (List.range' (c + 1) (n - c)).filter (fun k => c < k) = List.range' (c + 1) (n - c) := by
      refine List.filter_eq_self.mpr fun k hk => decide_eq_true ?_
      have h1 := (List.mem_range'_1.mp hk).1
      omega
    rw [hsplit, List.filter_append, hbelow, habove, List.nil_append]
  · have hzero : n - c = 0 := by omega
    rw [hzero, List.range'_zero]
    refine List.filter_eq_nil_iff.mpr fun k hk hk' => ?_
    have h1 := (List.mem_range'_1.mp hk).2
    have h2 : c < k := of_decide_eq_true hk'
    omega

theorem firstSequence_eq (h : Retained N db) (hN : 0 < N) (hr : 0 < revision id db) :
    firstSequence id db = revision id db - N + 1 := by
  have hmin : (kept N (revision id db)).min? = some (revision id db - N + 1) := by
    refine List.min?_eq_some_iff.mpr ⟨?_, fun k hk => (List.mem_range'_1.mp hk).1⟩
    exact List.mem_range'_1.mpr ⟨Nat.le_refl _, by omega⟩
  unfold firstSequence
  rw [h id, hmin]
  rfl

theorem take_range' (s n m : ℕ) : (List.range' s n).take m = List.range' s (min m n) := by
  refine List.ext_getElem ?_ fun k _ _ => ?_
  · simp
  · simp

theorem snapshot_ok {host : Host} {after limit : ℤ} {db₁ db₂ db₃ db₄ db₅ : SessionDb} {v : Snapshot}
    (hv : snapshot host id after limit db₁ db₂ db₃ db₄ db₅ = .ok v) :
    v.events = events host id after.toNat limit db₂ ∧
      ¬ (after.toNat ≠ 0 ∧ firstSequence id db₃ ≠ 0 ∧ after.toNat < firstSequence id db₃ - 1) := by
  unfold snapshot at hv
  split at hv
  · cases hv
  · dsimp only at hv
    by_cases hgap : after.toNat ≠ 0 ∧ firstSequence id db₃ ≠ 0 ∧ after.toNat < firstSequence id db₃ - 1
    · rw [if_pos hgap] at hv
      cases hv
    · rw [if_neg hgap] at hv
      obtain ⟨view, -, hv⟩ := bind_ok hv
      obtain rfl := Except.ok.inj hv
      exact ⟨rfl, hgap⟩

/-- **The events that are returned follow the cursor without a gap.** -/
theorem snapshot_events {host : Host} {after limit : ℤ} {db₁ db₂ db₃ db₄ db₅ : SessionDb} {v : Snapshot}
    (h₂ : Retained N db₂) (h₃ : Retained N db₃) (hrev : revision id db₂ ≤ revision id db₃)
    (hafter : 1 ≤ after) (hv : snapshot host id after limit db₁ db₂ db₃ db₄ db₅ = .ok v) :
    v.events.map SessionEvent.sequence = List.range' (after.toNat + 1) v.events.length := by
  obtain ⟨hevents, hgap⟩ := snapshot_ok hv
  suffices hrange : ∃ n, v.events.map SessionEvent.sequence = List.range' (after.toNat + 1) n by
    obtain ⟨n, hn⟩ := hrange
    have hlen := congrArg List.length hn
    rw [List.length_map, List.length_range'] at hlen
    rw [hlen]
    exact hn
  rw [hevents, events_sequences h₂, Int.toNat_natCast]
  by_cases hlow : revision id db₂ - N ≤ after.toNat
  · rw [filter_kept hlow]
    exact ⟨_, take_range' _ _ _⟩
  · -- what is kept has moved past the cursor, and the later read of the first number finds it
    have hN : 0 < N ∨ N = 0 := by omega
    rcases hN with hN | rfl
    · have hpos : 0 < revision id db₃ := by omega
      have hfirst := firstSequence_eq h₃ hN hpos
      rw [hfirst] at hgap
      omega
    · refine ⟨0, ?_⟩
      simp [kept]

/-- **A bounded ledger without gaps**: a `snapshot` reads after `ops`, then after `bs`, then after `cs`. -/
structure WithoutGaps (uuids : Uuids) (N : ℕ) (ops bs cs : List Op) : Prop where
  /-- the events that are kept have the last numbers up to the revision, each once -/
  retained : ∀ s ∈ (after uuids ops).db.sessions,
    (stored s.id (after uuids ops).db).map SessionEvent.sequence =
      List.range' (s.revision - N + 1) (s.revision - (s.revision - N))
  /-- a `snapshot` that returns has no gap after its cursor -/
  consecutive : ∀ {host id} {c limit : ℤ} {db₄ db₅ v}, 1 ≤ c →
    snapshot host id c limit (after uuids ops).db (after uuids (ops ++ bs)).db
      (after uuids (ops ++ bs ++ cs)).db db₄ db₅ = .ok v →
    v.events.map SessionEvent.sequence = List.range' (c.toNat + 1) v.events.length

theorem snapshot_consecutive (uuids : Uuids) {N : ℕ} {ops bs cs : List Op}
    (h : ∀ op ∈ ops ++ bs ++ cs, Keeps N op) : WithoutGaps uuids N ops bs cs := by
  have h₁ : ∀ op ∈ ops, Keeps N op :=
    fun op hop => h op (List.mem_append_left _ (List.mem_append_left _ hop))
  have h₂ : ∀ op ∈ ops ++ bs, Keeps N op := fun op hop => h op (List.mem_append_left _ hop)
  refine ⟨fun s hs => ?_, fun hc hv => ?_⟩
  · have hlookup : (after uuids ops).db.session s.id = some s :=
      lookup_key (linked_after uuids ops).constraints.sessions hs
    have hrev : revision s.id (after uuids ops).db = s.revision := by
      unfold revision
      rw [hlookup]
    rw [retained_after h₁ s.id, hrev]
    rfl
  · have hrun : after uuids (ops ++ bs ++ cs) = run (next uuids) (after uuids (ops ++ bs)) cs :=
      run_append _ _ _
    have hnumbers : Numbers N (after uuids (ops ++ bs)).db (after uuids (ops ++ bs ++ cs)).db := by
      rw [hrun]
      exact numbers_run (linked_after uuids (ops ++ bs)) fun op hop => h op (List.mem_append_right _ hop)
    exact snapshot_events (retained_after h₂) (retained_after h) (hnumbers.mono _) hc hv

/-- Events that are appended between the reads. -/
theorem snapshot_consecutive_session : WithoutGaps ids 32
    [.createOrGet (clock 1) (some "chat") "Create a note", .appendEvent (clock 2) "chat" "first" .null]
    [.appendEvent (clock 3) "chat" "second" .null] [.requestCancel (clock 4) "chat" ""] :=
  snapshot_consecutive ids (by simp [Keeps, envOf, clock, process])

end Smara.Session.Retention
