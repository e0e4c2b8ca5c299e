import Smara.Session.Endings

/-! # The rows of the sessions

Every call of the envelope is one of four writes: nothing, a new session, an update of a session, or
an event of a session with the update that counts it. `Rewrite` lists the updates. The calls of the
protocol leave the sessions and their events alone (`sessions_of_change`).

* `recorded_next`: no event of a session has a number past its revision.
* `constraints_of_written`: so no write of the envelope breaks a key of the schema. -/

namespace Smara.Session.Rows

open Lib.Machine Lib.Table Lib.Transaction
open TaskStore.Schema (Uuid Time)
open TaskStore.Lifecycle (clip)
open Goals.Schema (Json Uuids)
open Session.Schema Session.Envelope Session.Protocol Session.Steps
open Session.Effects Session.Links Session.Endings

variable {uuids : Uuids} {w w' : World} {op : Op} {db db' : SessionDb} {env : Env} {i : String}

/-! ### The calls of the protocol -/

structure SameSessions (db db' : SessionDb) : Prop where
  sessions : db'.sessions = db.sessions
  events : db'.sessionEvents = db.sessionEvents

theorem SameSessions.trans {db'' : SessionDb} (h : SameSessions db db') (h' : SameSessions db' db'') :
    SameSessions db db'' := ⟨h'.sessions.trans h.sessions, h'.events.trans h.events⟩

theorem sessions_closeItems {threadId : String} {turnId : Uuid} (s : ItemStatus) (items : List Item)
    (db : SessionDb) : SameSessions db (closeItems env threadId turnId s items db) := by
  induction items generalizing db with
  | nil => exact ⟨rfl, rfl⟩
  | cons i items ih =>
    have hone : SameSessions db ((db.updItems (fun j => j.id = i.id)
        fun j => { j with status := s }).event threadId turnId .itemCompleted
        (.obj [("item_id", .str (itemName i.id)), ("status", .str s.text)]) env.now) := ⟨rfl, rfl⟩
    exact hone.trans (ih _)

theorem sessions_endTurn (env : Env) (threadId : String) (turnId : Uuid) (status : TurnStatus)
    (db : SessionDb) : SameSessions db (endTurn env threadId turnId status db) := by
  have hended : SameSessions db (endedTurn env turnId status db) := ⟨rfl, rfl⟩
  exact (hended.trans (sessions_closeItems _ _ _)).trans ⟨rfl, rfl⟩

theorem sessions_answered {threadId : String} {turnId fresh : Uuid} {messageId : Option Uuid}
    {answer : String} :
    SameSessions db (answered env fresh threadId turnId messageId answer db).2 := by
  unfold answered
  dsimp only
  split_ifs
  · exact ⟨rfl, rfl⟩
  · cases messageId with
    | some id => exact ⟨rfl, rfl⟩
    | none => exact ⟨rfl, rfl⟩

/-- **Only the calls of the envelope write sessions and their events.** -/
theorem sessions_of_change (h : Change uuids w op db') (hc : w.db.Constraints) :
    Envelops w op db' ∨ SameSessions w.db db' := by
  cases h with
  | quiet h => exact Or.inl h
  | recovers _ _ _ _ _ h =>
    subst h
    exact Or.inr (((sessions_endTurn _ _ _ _ _).trans ⟨rfl, rfl⟩).trans ⟨rfl, rfl⟩)
  | finishes _ _ _ _ h =>
    subst h
    exact Or.inr (sessions_answered.trans (sessions_endTurn _ _ _ _ _))
  | interrupts _ _ h =>
    rcases endActive_cases hc h with ⟨-, rfl⟩ | ⟨t, -, rfl⟩
    · exact Or.inr ⟨rfl, rfl⟩
    · exact Or.inr (sessions_endTurn _ _ _ _ _)
  | progresses _ _ _ _ h | resumes _ _ _ h =>
    rw [← (Prod.mk.inj (Except.ok.inj h)).2]
    exact Or.inr ⟨rfl, rfl⟩
  | opens _ _ _ h | starts _ _ h | closes _ _ h | streams _ _ h | asks _ _ _ _ h
    | responds _ _ _ _ _ _ _ h | expires _ _ h =>
    subst h
    exact Or.inr ⟨rfl, rfl⟩

/-! ### The calls of the envelope -/

/-- **What a call of the envelope does to the row of a session**; `starts` is the start of a turn. -/
inductive Rewrite (starts : Prop) : (RuntimeSession → RuntimeSession) → Prop
  | start {env request} (h : starts) : Rewrite starts (started env request)
  | settle {env c status f} (hf : ∀ s, ∃ n, f s = { settled env c status s with revision := n }) :
      Rewrite starts f
  | cancel {env reason} : Rewrite starts (cancelled env reason)
  | touch {f} (hf : ∀ s, ∃ n now, f s = { s with revision := n, updatedAt := now }) :
      Rewrite starts f

theorem rewrite_id {starts : Prop} {f : RuntimeSession → RuntimeSession} (h : Rewrite starts f)
    (s : RuntimeSession) : (f s).id = s.id := by
  cases h with
  | start _ => rfl
  | settle hf =>
    obtain ⟨n, hn⟩ := hf s
    rw [hn]
    rfl
  | cancel => rfl
  | touch hf =>
    obtain ⟨n, now, hn⟩ := hf s
    rw [hn]

inductive Written (starts : Prop) (call : Option Env) (id : String) (db db' : SessionDb) : Prop
  | same (h : db' = db)
  | new {env request} (hs : db.session id = none)
      (h : db' = { db with sessions := db.sessions ++ [created env id request] })
  | row {f} (hf : Rewrite starts f) (hrev : ∀ s, (f s).revision = s.revision)
      (h : db' = db.updSessions (fun s => s.id = id) f)
  | event {env : Env} {s kind payload f} (henv : env ∈ call) (hs : db.session id = some s)
      (hf : Rewrite starts f) (hrev : (f s).revision = s.revision + 1)
      (h : db' = (record env id (s.revision + 1) kind payload db).updSessions (fun s => s.id = id) f)

section
variable {starts : Prop} {call : Option Env} {u : Unit} {id : String}

theorem written_createOrGet {fresh : Uuid} {given : Option String} {request : String}
    (h : createOrGet env fresh given request db = .ok (id, db')) : Written starts call id db db' := by
  obtain ⟨rfl, rfl⟩ := Prod.mk.inj (Except.ok.inj h)
  unfold inserted
  split
  · exact .same rfl
  · next hs => exact .new hs rfl

theorem written_refresh (hstarts : starts) {request : String}
    (h : refresh env id request db = .ok (u, db')) : Written starts call id db db' :=
  .row (.start hstarts) (fun _ => rfl) (Prod.mk.inj (Except.ok.inj h)).2.symm

theorem written_appendEvent (henv : env ∈ call) {kind : String} {payload : Json}
    (h : appendEvent env id kind payload db = .ok (u, db')) : Written starts call id db db' := by
  unfold appendEvent at h
  dsimp only at h
  split at h
  · cases h
  · split at h
    · cases h
    · next s hs =>
      have htouch : Rewrite starts fun t => { t with revision := s.revision + 1, updatedAt := env.now } :=
        .touch fun _ => ⟨_, _, rfl⟩
      exact .event henv hs htouch rfl (Prod.mk.inj (Except.ok.inj h)).2.symm

theorem written_checkpointed (henv : env ∈ call) {c : Checkpoint} {status : Option SessionStatus}
    {s : RuntimeSession} (hs : db.session id = some s) : Written starts call id db (checkpointed env c status s db) := by
  obtain rfl := key_of_lookup hs
  unfold checkpointed
  dsimp only
  split
  · exact .row (.settle fun s => ⟨s.revision, rfl⟩) (fun _ => rfl) rfl
  · next kind _ =>
    have hsettle : Rewrite starts ((fun t : RuntimeSession => { t with revision := s.revision + 1 }) ∘
        settled env c status) := .settle fun _ => ⟨_, rfl⟩
    have hupd := updateWhere_updateWhere (p := fun t : RuntimeSession => t.id = s.id)
      (f := settled env c status) (g := fun t => { t with revision := s.revision + 1 })
      (t := db.sessions) fun _ h => h
    have hwrite : (record env s.id (s.revision + 1) (clip 120 kind) c.eventPayload
          (db.updSessions (fun t => t.id = s.id) (settled env c status))).updSessions
            (fun t => t.id = s.id) (fun t => { t with revision := s.revision + 1 }) =
        (record env s.id (s.revision + 1) (clip 120 kind) c.eventPayload db).updSessions
          (fun t => t.id = s.id)
          ((fun t : RuntimeSession => { t with revision := s.revision + 1 }) ∘ settled env c status) :=
      congrArg (fun sessions =>
        { record env s.id (s.revision + 1) (clip 120 kind) c.eventPayload db with sessions := sessions })
        hupd
    exact .event henv hs hsettle rfl hwrite

theorem written_checkpoint (henv : env ∈ call) {c : Checkpoint}
    (h : checkpoint env id c db = .ok (u, db')) :
    Written starts call id db db' := by
  obtain ⟨status, -, h⟩ := bind_ok h
  split at h
  · cases h
  · next s hs =>
    split at h
    · rw [← (Prod.mk.inj (Except.ok.inj h)).2]
      exact written_checkpointed henv hs
    · exact .same (Prod.mk.inj (Except.ok.inj h)).2.symm

theorem written_requestCancel (henv : env ∈ call) {reason : String}
    (h : requestCancel env id reason db = .ok (u, db')) :
    Written starts call id db db' := by
  unfold requestCancel at h
  dsimp only at h
  split at h
  · cases h
  · next s hs =>
    split at h
    · have htouch : Rewrite starts fun t => { t with revision := s.revision + 1, updatedAt := env.now } :=
        .touch fun _ => ⟨_, _, rfl⟩
      exact .event henv hs htouch rfl (Prod.mk.inj (Except.ok.inj h)).2.symm
    · split at h
      · exact .same (Prod.mk.inj (Except.ok.inj h)).2.symm
      · exact .event henv hs .cancel rfl (Prod.mk.inj (Except.ok.inj h)).2.symm

end

/-- The step refreshes the session: the second transaction of `start_turn`. -/
def Refreshes (w : World) (id : String) : Op → Prop
  | .rest _ j => ∃ request, w.calls[j]? = some (.refresh id request)
  | _ => False

/-- **Every call of the envelope is such a write.** -/
theorem written_of_envelops (h : Envelops w op db') : 
    ∃ id, Written (Refreshes w id op) (envOf op) id w.db db' := by
  cases h with
  | idle h => exact ⟨"", .same h⟩
  | creates _ h => exact ⟨_, written_createOrGet h⟩
  | refreshes hop hcall h =>
    subst hop
    exact ⟨_, written_refresh ⟨_, hcall⟩ h⟩
  | appends henv h => exact ⟨_, written_appendEvent henv h⟩
  | checkpoints henv h => exact ⟨_, written_checkpoint henv h⟩
  | cancels henv h => exact ⟨_, written_requestCancel henv h⟩

/-! ### The row of a session -/

section
variable {starts : Prop} {call : Option Env} {id : String}

theorem session_updSessions {f : RuntimeSession → RuntimeSession} (hid : ∀ s, (f s).id = s.id) :
    (db.updSessions (fun s => s.id = id) f).session i =
      if i = id then (db.session id).map f else db.session i := by
  have hlookup : (db.updSessions (fun s => s.id = id) f).session i =
      (db.session i).map fun s => if s.id = id then f s else s :=
    lookup_updateWhere fun s _ => hid s
  rw [hlookup]
  cases hs : db.session i with
  | none =>
    split_ifs with hi
    · rw [← hi, hs]
      rfl
    · rfl
  | some s =>
    have hsid : s.id = i := key_of_lookup hs
    split_ifs with hi
    · rw [← hi, hs]
      simp [hsid]
    · have hne : ¬ s.id = id := fun h => hi (hsid.symm.trans h)
      simp [hne]

theorem session_created {request : String} (hs : db.session id = none) :
    ({ db with sessions := db.sessions ++ [created env id request] } : SessionDb).session i =
      if i = id then some (created env id request) else db.session i := by
  have hlookup : ({ db with sessions := db.sessions ++ [created env id request] } : SessionDb).session i =
      (db.session i).or (lookup RuntimeSession.id i [created env id request]) := lookup_append
  rw [hlookup]
  split_ifs with hi
  · subst hi
    rw [hs, Option.none_or]
    simp [lookup, created]
  · have hne : ¬ (created env id request).id = i := fun h => hi h.symm
    have hnone : lookup RuntimeSession.id i [created env id request] = none :=
      lookup_eq_none.mpr fun s hmem => by rwa [List.mem_singleton.mp hmem]
    rw [hnone, Option.or_none]

theorem session_of_written (h : Written starts call id db db') (i : String) :
    db'.session i = db.session i ∨ i = id ∧
      ((db.session id = none ∧ ∃ env request, db'.session id = some (created env id request)) ∨
        ∃ s f, Rewrite starts f ∧ db.session id = some s ∧ db'.session id = some (f s)) := by
  cases h with
  | same h =>
    rw [h]
    exact Or.inl rfl
  | new hs h =>
    rw [h, session_created hs, session_created hs, if_pos rfl]
    split_ifs with hi
    · exact Or.inr ⟨hi, Or.inl ⟨hs, _, _, rfl⟩⟩
    · exact Or.inl rfl
  | @row f hf _ h =>
    rw [h, session_updSessions (rewrite_id hf), session_updSessions (rewrite_id hf), if_pos rfl]
    split_ifs with hi
    · cases hs : db.session id with
      | none => exact Or.inl (by rw [hi, hs]; rfl)
      | some s => exact Or.inr ⟨hi, Or.inr ⟨s, f, hf, rfl, rfl⟩⟩
    · exact Or.inl rfl
  | @event env s kind payload f _ hs hf _ h =>
    have hsession : ∀ i, (record env id (s.revision + 1) kind payload db).session i = db.session i :=
      fun _ => rfl
    rw [h, session_updSessions (rewrite_id hf), session_updSessions (rewrite_id hf), if_pos rfl,
      hsession, hsession, hs]
    split_ifs with hi
    · exact Or.inr ⟨hi, Or.inr ⟨s, f, hf, rfl, rfl⟩⟩
    · exact Or.inl rfl

/-! ### No write breaks a key -/

def Counted (db : SessionDb) : Prop :=
  ∀ e ∈ db.sessionEvents, ∃ s ∈ db.session e.sessionId, e.sequence ≤ s.revision

theorem counted_of_same (h : Counted db) (hs : SameSessions db db') : Counted db' := by
  intro e he
  rw [hs.events] at he
  have hsession : db'.session e.sessionId = db.session e.sessionId := by
    unfold SessionDb.session
    rw [hs.sessions]
  rw [hsession]
  exact h e he

theorem Counted.grows (h : Counted db)
    (hrev : ∀ i, ∀ s ∈ db.session i, ∃ s' ∈ db'.session i, s.revision ≤ s'.revision)
    {e : SessionEvent} (he : e ∈ db.sessionEvents) :
    ∃ s ∈ db'.session e.sessionId, e.sequence ≤ s.revision := by
  obtain ⟨s, hs, hle⟩ := h e he
  obtain ⟨s', hs', hle'⟩ := hrev _ s hs
  exact ⟨s', hs', hle.trans hle'⟩

theorem counted_of_written (hw : Written starts call id db db') (h : Counted db) : Counted db' := by
  cases hw with
  | same hw =>
    rw [hw]
    exact h
  | new hs hw =>
    subst hw
    intro e he
    refine h.grows (fun i s hi => ⟨s, ?_, Nat.le_refl _⟩) he
    rw [session_created hs]
    split_ifs with hid
    · rw [hid, hs] at hi
      cases hi
    · exact hi
  | @row f hf hrev hw =>
    subst hw
    intro e he
    refine h.grows (fun i s hi => ?_) he
    rw [session_updSessions (rewrite_id hf)]
    split_ifs with hid
    · rw [hid] at hi
      exact ⟨f s, Option.mem_map_of_mem f hi, (hrev s).ge⟩
    · exact ⟨s, hi, Nat.le_refl _⟩
  | @event env s kind payload f _ hs hf hrev hw =>
    subst hw
    have hsession : ∀ i, ((record env id (s.revision + 1) kind payload db).updSessions
        (fun s => s.id = id) f).session i = if i = id then some (f s) else db.session i := by
      intro i
      rw [session_updSessions (rewrite_id hf)]
      have hrecord : (record env id (s.revision + 1) kind payload db).session id = some s := hs
      rw [hrecord]
      rfl
    intro e he
    rcases List.mem_append.mp (mem_deleteWhere.mp he).1 with he | he
    · refine h.grows (fun i t hi => ?_) he
      rw [hsession]
      split_ifs with hid
      · rw [hid, hs] at hi
        obtain rfl := Option.some.inj hi
        exact ⟨_, rfl, by omega⟩
      · exact ⟨t, hi, Nat.le_refl _⟩
    · rw [List.mem_singleton.mp he, hsession, if_pos rfl]
      exact ⟨_, rfl, hrev.ge⟩

/-- **No write of the envelope breaks a key of the schema.** -/
theorem constraints_of_written (hw : Written starts call id db db') (hc : db.Constraints)
    (h : Counted db) : db'.Constraints := by
  cases hw with
  | same hw =>
    rw [hw]
    exact hc
  | new hs hw =>
    subst hw
    refine ⟨?_, hc.sessionEvents, hc.turns, hc.single, hc.items, hc.approvals⟩
    refine keyed_append.mpr ⟨hc.sessions, List.nodup_singleton _, fun s hmem t ht => ?_⟩
    rw [List.mem_singleton.mp ht]
    exact lookup_eq_none.mp hs s hmem
  | row hf _ hw =>
    subst hw
    refine ⟨?_, hc.sessionEvents, hc.turns, hc.single, hc.items, hc.approvals⟩
    exact (keyed_updateWhere fun s _ => rewrite_id hf s).mpr hc.sessions
  | @event env s kind payload f _ hs hf _ hw =>
    subst hw
    refine ⟨?_, ?_, hc.turns, hc.single, hc.items, hc.approvals⟩
    · exact (keyed_updateWhere fun s _ => rewrite_id hf s).mpr hc.sessions
    · refine Keyed.deleteWhere (keyed_append.mpr ⟨hc.sessionEvents, List.nodup_singleton _, ?_⟩)
      intro e he e' he' hkey
      rw [List.mem_singleton.mp he'] at hkey
      obtain ⟨hid, hseq⟩ := Prod.mk.inj hkey
      obtain ⟨t, ht, hle⟩ := h e he
      rw [hid, hs] at ht
      obtain rfl := Option.some.inj ht
      have hnext : e.sequence = s.revision + 1 := hseq
      omega

theorem checkpoint_commits (hc : db.Constraints) (hcount : Counted db)
    (hs : (db.session id).isSome) {c : Checkpoint} {status : Option SessionStatus}
    (hnamed : c.named = .ok status) : ∃ db', transaction (checkpoint env id c) db = (.ok (), db') := by
  obtain ⟨s, hs⟩ := Option.isSome_iff_exists.mp hs
  obtain ⟨db', hok⟩ : ∃ db', checkpoint env id c db = .ok ((), db') := by
    unfold checkpoint
    rw [hnamed, hs]
    dsimp only [Bind.bind, Except.bind]
    split_ifs
    · exact ⟨_, rfl⟩
    · exact ⟨_, rfl⟩
  have hw : Written False (some env) id db db' := written_checkpoint rfl hok
  exact ⟨db', commit_of_ok hok (constraints_of_written hw hc hcount)⟩

end

theorem session_stays (hl : Linked w) (op : Op) {id : String} (h : (w.db.session id).isSome) :
    ((next uuids w op).db.session id).isSome := by
  have hdoes : Does uuids w op (next uuids w op).db := does_next hl op
  rcases sessions_of_change hdoes.change hl.constraints with he | hsame
  · obtain ⟨i, hw⟩ := written_of_envelops he
    rcases session_of_written hw id with hs | ⟨rfl, ⟨-, env, request, hs⟩ | ⟨s, f, -, -, hs⟩⟩
    · rwa [hs]
    · rw [hs]
      rfl
    · rw [hs]
      rfl
  · unfold SessionDb.session at h ⊢
    rwa [hsame.sessions]

theorem counted_next (hl : Linked w) (h : Counted w.db) (op : Op) :
    Counted (next uuids w op).db := by
  have hdoes : Does uuids w op (next uuids w op).db := does_next hl op
  rcases sessions_of_change hdoes.change hl.constraints with he | hsame
  · obtain ⟨id, hw⟩ := written_of_envelops he
    exact counted_of_written hw h
  · exact counted_of_same h hsame

end Smara.Session.Rows
