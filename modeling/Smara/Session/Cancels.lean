import Smara.Session.Rows

/-! # Cancellation and late writers

`request_cancel` writes the flag and the status of a session at once; `checkpoint` reads the flag when
it writes the status, and `resume` looks at the session before its checkpoint. `Run` is the world with
the calls of `resume` in flight.

* `cancelled_next`: a session that is cancelled stays so until a turn starts.
* `cancellation_wins`: over every run, a flagged session is cancelled; after a cancellation that took
  effect no checkpoint and no `resume` shows another status until `start_turn`, and a second
  cancellation writes nothing. -/

namespace Smara.Session.Cancels

open Lib.Machine Lib.Table Lib.Transaction
open TaskStore.Schema (Uuid)
open Goals.Schema (Json Uuids)
open Session.Schema Session.Envelope Session.Protocol Session.Steps
open Session.Effects Session.Links Session.Rows

variable {uuids : Uuids} {w : World} {op : Op} {db db' : SessionDb} {env : Env} {id : String}

/-! ### `resume` -/

/-- Where a call of `resume` stands. -/
inductive Resume
  | raised (e : Err)
  | returned (s : RuntimeSession)
  /-- before the checkpoint, with the status that was read -/
  | writing (id : String) (seen : SessionStatus)

/-- **`resume`**, to its checkpoint. -/
def resume (id : String) (db : SessionDb) : Resume :=
  match db.session id with
  | none => .raised (.keyError id)
  | some s =>
    if s.status = .cancelled ∨ s.cancelRequested then
      .raised (.valueError "cancelled runtime sessions cannot be resumed")
    else if s.status = .completed ∨ s.status = .failed then .returned s
    else .writing id s.status

/-- The checkpoint of a `resume`. -/
def resumption (seen : SessionStatus) : Checkpoint where
  event := some "turn.resumed"
  eventPayload := .obj [("from_status", .str seen.text)]

/-- What a checkpoint returns, and raises. -/
def shown (id : String) : Except Err Unit × SessionDb → Resume
  | (.error e, _) => .raised e
  | (.ok _, db) =>
    match db.session id with
    | none => .raised (.runtimeError "runtime session disappeared during checkpoint")
    | some s => .returned s

/-! ### Runs -/

/-- A world with the calls of `resume`. -/
structure Run where
  world : World := {}
  resumes : List Resume := []

inductive Call
  | step (op : Op)
  | resume (id : String)
  /-- the checkpoint of a `resume`, which is named by its position -/
  | resumes (env : Env) (k : ℕ)

def move (uuids : Uuids) (r : Run) : Call → Run
  | .step op => { r with world := next uuids r.world op }
  | .resume id => { r with resumes := r.resumes ++ [resume id r.world.db] }
  | .resumes env k =>
    match r.resumes[k]? with
    | some (.writing id seen) =>
      { world := next uuids r.world (.checkpoint env id (resumption seen))
        resumes := r.resumes.set k
          (shown id (transaction (checkpoint env id (resumption seen)) r.world.db)) }
    | _ => r

abbrev arrived (uuids : Uuids) (calls : List Call) : Run := run (move uuids) {} calls

/-- The call refreshes the session for a new turn. -/
def Restarts (id : String) (r : Run) : Call → Prop
  | .step op => Refreshes r.world id op
  | _ => False

theorem world_move (r : Run) (c : Call) :
    (move uuids r c).world = r.world ∨ ∃ op, (move uuids r c).world = next uuids r.world op ∧
      ∀ id, Refreshes r.world id op → Restarts id r c := by
  cases c with
  | step op => exact Or.inr ⟨op, rfl, fun _ h => h⟩
  | resume id => exact Or.inl rfl
  | resumes env k =>
    simp only [move]
    split
    · next id seen _ =>
      exact Or.inr ⟨.checkpoint env id (resumption seen), rfl, fun _ h => absurd h not_false⟩
    · exact Or.inl rfl

/-! ### Flags -/

def Flagged (s : RuntimeSession) : Prop := s.cancelRequested → s.status = .cancelled

def Cancelled (id : String) (db : SessionDb) : Prop :=
  ∃ s ∈ db.session id, s.cancelRequested ∧ s.status = .cancelled

theorem settled_flagged (env : Env) (c : Checkpoint) (status : Option SessionStatus)
    (s : RuntimeSession) : Flagged (settled env c status s) := by
  intro hflag
  have hwas : s.cancelRequested = true := hflag
  unfold settled
  dsimp only
  split_ifs with hwon
  · rfl
  · by_contra hne
    exact hwon ⟨hwas, hne⟩

section
variable {starts : Prop} {f : RuntimeSession → RuntimeSession}

theorem rewrite_flagged (h : Rewrite starts f) {s : RuntimeSession} (hs : Flagged s) :
    Flagged (f s) := by
  cases h with
  | start _ => exact fun hflag => absurd hflag Bool.false_ne_true
  | @settle env c status f hf =>
    obtain ⟨n, hn⟩ := hf s
    rw [hn]
    exact settled_flagged env c status s
  | cancel => exact fun _ => rfl
  | touch hf =>
    obtain ⟨n, now, hn⟩ := hf s
    rw [hn]
    exact hs

theorem rewrite_keeps (h : Rewrite starts f) (hno : ¬ starts) {s : RuntimeSession}
    (hs : s.cancelRequested) : (f s).cancelRequested := by
  cases h with
  | start h => exact absurd h hno
  | settle hf =>
    obtain ⟨n, hn⟩ := hf s
    rw [hn]
    exact hs
  | cancel => rfl
  | touch hf =>
    obtain ⟨n, now, hn⟩ := hf s
    rw [hn]
    exact hs

end

/-- **What a step does to a session**: it keeps what is flagged cancelled, and takes no flag back
unless a turn starts. -/
theorem session_next (hl : Linked w) (op : Op) (id : String) :
    (∀ s' ∈ (next uuids w op).db.session id, (∀ s ∈ w.db.session id, Flagged s) → Flagged s') ∧
      (¬ Refreshes w id op → ∀ s ∈ w.db.session id, s.cancelRequested →
        ∃ s' ∈ (next uuids w op).db.session id, s'.cancelRequested) := by
  have hdoes : Does uuids w op (next uuids w op).db := does_next hl op
  have hsame : (next uuids w op).db.session id = w.db.session id →
      (∀ s' ∈ (next uuids w op).db.session id, (∀ s ∈ w.db.session id, Flagged s) → Flagged s') ∧
        (¬ Refreshes w id op → ∀ s ∈ w.db.session id, s.cancelRequested →
          ∃ s' ∈ (next uuids w op).db.session id, s'.cancelRequested) := by
    intro h
    rw [h]
    exact ⟨fun s' hs' hall => hall s' hs', fun _ s hs hflag => ⟨s, hs, hflag⟩⟩
  rcases sessions_of_change hdoes.change hl.constraints with he | hs
  · obtain ⟨i, hw⟩ := written_of_envelops he
    rcases session_of_written hw id with h | ⟨rfl, ⟨hnone, env, request, h⟩ | ⟨s, f, hf, hs, h⟩⟩
    · exact hsame h
    · rw [hnone, h]
      refine ⟨fun s' hs' _ hflag => ?_, fun _ s hs => by cases hs⟩
      obtain rfl := Option.some.inj hs'
      exact absurd hflag Bool.false_ne_true
    · rw [hs, h]
      refine ⟨fun s' hs' hall => ?_, fun hno t ht hflag => ?_⟩
      · obtain rfl := Option.some.inj hs'
        exact rewrite_flagged hf (hall s rfl)
      · obtain rfl := Option.some.inj ht
        exact ⟨_, rfl, rewrite_keeps hf hno hflag⟩
  · refine hsame ?_
    unfold SessionDb.session
    rw [hs.sessions]

/-! ### What holds of every run -/

/-- What holds of the world of a run. -/
structure Fit (w : World) : Prop where
  linked : Linked w
  counted : Counted w.db
  flagged : ∀ id, ∀ s ∈ w.db.session id, Flagged s

theorem fit_empty : Fit {} := by
  refine ⟨linked_empty, fun e he => ?_, fun id s hs => ?_⟩
  · cases he
  · cases hs

theorem fit_next (h : Fit w) (op : Op) : Fit (next uuids w op) :=
  ⟨linked_next h.linked op, counted_next h.linked h.counted op,
    fun id s hs => (session_next h.linked op id).1 s hs (h.flagged id)⟩

theorem fit_after (uuids : Uuids) (ops : List Op) : Fit (after uuids ops) :=
  inv_run (I := Fit) (G := fun _ _ => True) (fun _ op h _ => fit_next h op) fit_empty
    (along_of_forall fun _ _ => trivial)

theorem fit_move {r : Run} (h : Fit r.world) (c : Call) : Fit (move uuids r c).world := by
  rcases world_move r c with hw | ⟨op, hw, -⟩
  · rw [hw]
    exact h
  · rw [hw]
    exact fit_next h op

theorem fit_arrived (uuids : Uuids) (calls : List Call) : Fit (arrived uuids calls).world :=
  inv_run (I := fun r : Run => Fit r.world) (G := fun _ _ => True) (fun _ c h _ => fit_move h c) fit_empty
    (along_of_forall fun _ _ => trivial)

/-! ### What is cancelled stays cancelled -/

theorem cancelled_next (hw : Fit w) (hno : ¬ Refreshes w id op) (h : Cancelled id w.db) :
    Cancelled id (next uuids w op).db := by
  obtain ⟨s, hs, hflag, -⟩ := h
  obtain ⟨s', hs', hflag'⟩ := (session_next hw.linked op id).2 hno s hs hflag
  exact ⟨s', hs', hflag', (fit_next hw op).flagged id s' hs' hflag'⟩

theorem cancelled_move {r : Run} {c : Call} (hr : Fit r.world) (hno : ¬ Restarts id r c)
    (h : Cancelled id r.world.db) : Cancelled id (move uuids r c).world.db := by
  rcases world_move r c with hw | ⟨op, hw, hstart⟩
  · rw [hw]
    exact h
  · rw [hw]
    exact cancelled_next hr (fun hre => hno (hstart id hre)) h

theorem cancelled_requestCancel (hc : db.Constraints) (h : Counted db) (reason : String)
    {s : RuntimeSession} (hs : db.session id = some s)
    (hterminal : s.status.Terminal → s.status = .cancelled) :
    Cancelled id (transaction (requestCancel env id reason) db).2 := by
  obtain ⟨db', hok, hcancelled⟩ :
      ∃ db', requestCancel env id reason db = .ok ((), db') ∧ Cancelled id db' := by
    unfold requestCancel
    dsimp only
    rw [hs]
    dsimp only
    rw [if_neg fun h => h.2 (hterminal h.1)]
    split_ifs with hagain
    · exact ⟨db, rfl, s, hs, hagain⟩
    · refine ⟨_, rfl, cancelled env (Smara.TaskStore.Lifecycle.clip 500
        (orElse (some reason) "cancelled by user")) s, ?_, rfl, rfl⟩
      rw [session_updSessions (rewrite_id (Rewrite.cancel : Rewrite False _)), if_pos rfl]
      exact Option.mem_map_of_mem _ hs
  have hw : Written False (some env) id db db' := written_requestCancel rfl hok
  have hcommit : transaction (requestCancel env id reason) db = (.ok (), db') :=
    commit_of_ok hok (constraints_of_written hw hc h)
  rw [hcommit]
  exact hcancelled

/-- The call cancels the session, which has not ended otherwise. -/
def Withdraws (id : String) (r : Run) (c : Call) : Prop :=
  ((∃ env reason, c = .step (.requestCancel env id reason)) ∨ ∃ env, c = .step (.interrupt env id)) ∧
    ∃ s ∈ r.world.db.session id, s.status.Terminal → s.status = .cancelled

theorem cancelled_withdrawn {r : Run} {c : Call} (hr : Fit r.world) (h : Withdraws id r c) :
    Cancelled id (move uuids r c).world.db := by
  obtain ⟨hcall, s, hs, hterminal⟩ := h
  rcases hcall with ⟨env, reason, rfl⟩ | ⟨env, rfl⟩
  · exact cancelled_requestCancel hr.linked.constraints hr.counted reason hs hterminal
  · have hdb : (move uuids r (.step (.interrupt env id))).world.db =
        (transaction (requestCancel env id "cancelled by user") r.world.db).2 := by
      simp only [move, next, World.andThen]
      split
      · next he => rw [he]; rfl
      · next he => rw [he]
    rw [hdb]
    exact cancelled_requestCancel hr.linked.constraints hr.counted _ hs hterminal

/-- **The session is cancelled, for whoever comes late.** -/
structure Over (id : String) (r : Run) : Prop where
  cancelled : ∃ s ∈ r.world.db.session id, s.cancelRequested ∧ s.status = .cancelled
  /-- a checkpoint that returns shows the session cancelled -/
  checkpoints : ∀ env c s, shown id (transaction (checkpoint env id c) r.world.db) = .returned s →
    s.status = .cancelled
  /-- a `resume` that begins raises -/
  resumes : resume id r.world.db =
    .raised (.valueError "cancelled runtime sessions cannot be resumed")
  /-- a `resume` that looked before shows the session cancelled -/
  late : ∀ uuids env k seen s, r.resumes[k]? = some (.writing id seen) →
    (move uuids r (.resumes env k)).resumes[k]? = some (.returned s) → s.status = .cancelled
  /-- a second cancellation writes nothing -/
  again : ∀ env reason,
    transaction (requestCancel env id reason) r.world.db = (.ok (), r.world.db)

theorem over_of_cancelled {r : Run} (hr : Fit r.world) (h : Cancelled id r.world.db) : Over id r := by
  have hnext : ∀ env c, Cancelled id (next ids r.world (.checkpoint env id c)).db :=
    fun env c => cancelled_next hr not_false h
  have hcheckpoints : ∀ env c s,
      shown id (transaction (checkpoint env id c) r.world.db) = .returned s → s.status = .cancelled := by
    intro env c s hshown
    obtain ⟨s', hs', -, hstatus⟩ : Cancelled id (transaction (checkpoint env id c) r.world.db).2 :=
      hnext env c
    generalize transaction (checkpoint env id c) r.world.db = out at hshown hs'
    obtain ⟨result, db'⟩ := out
    cases result with
    | error e => cases hshown
    | ok u =>
      simp only [shown] at hshown hs'
      rw [hs'] at hshown
      cases hshown
      exact hstatus
  obtain ⟨s, hs, hflag, hstatus⟩ := h
  refine ⟨⟨s, hs, hflag, hstatus⟩, hcheckpoints, ?_, fun uuids env k seen s hk hs' => ?_,
    fun env reason => ?_⟩
  · unfold resume
    rw [hs]
    exact if_pos (Or.inl hstatus)
  · have hlt : k < r.resumes.length := (List.getElem?_eq_some_iff.mp hk).1
    simp only [move, hk] at hs'
    rw [List.getElem?_set_self hlt] at hs'
    exact hcheckpoints env _ s (Option.some.inj hs')
  · have hok : requestCancel env id reason r.world.db = .ok ((), r.world.db) := by
      unfold requestCancel
      dsimp only
      rw [hs]
      dsimp only
      rw [if_neg fun h => h.2 hstatus, if_pos ⟨hflag, hstatus⟩]
    exact commit_of_ok hok hr.linked.constraints

/-- **Cancellation wins over late completions.** -/
structure CancellationWins (uuids : Uuids) (calls : List Call) : Prop where
  /-- the flag implies the status -/
  flagged : ∀ s ∈ (arrived uuids calls).world.db.sessions, s.cancelRequested → s.status = .cancelled
  /-- a cancellation that took effect holds until a turn starts -/
  wins : ∀ {id call later}, Withdraws id (arrived uuids calls) call →
    Along (move uuids) (fun r c => ¬ Restarts id r c) (arrived uuids (calls ++ [call])) later →
    Over id (arrived uuids (calls ++ call :: later))

theorem cancellation_wins (uuids : Uuids) (calls : List Call) : CancellationWins uuids calls := by
  have hfit : Fit (arrived uuids calls).world := fit_arrived uuids calls
  refine ⟨fun s hs => ?_, fun {id call later} hcall hlater => ?_⟩
  · exact hfit.flagged s.id s (lookup_key hfit.linked.constraints.sessions hs)
  · have hstart : arrived uuids (calls ++ [call]) = move uuids (arrived uuids calls) call :=
      run_append _ _ _
    have hrun : arrived uuids (calls ++ call :: later) =
        run (move uuids) (arrived uuids (calls ++ [call])) later := by
      rw [hstart]
      exact run_append _ _ _
    have hstep : ∀ r c, Fit r.world ∧ Cancelled id r.world.db → ¬ Restarts id r c →
        Fit (move uuids r c).world ∧ Cancelled id (move uuids r c).world.db :=
      fun r c h hno => ⟨fit_move h.1 c, cancelled_move h.1 hno h.2⟩
    have hfirst : Fit (arrived uuids (calls ++ [call])).world ∧
        Cancelled id (arrived uuids (calls ++ [call])).world.db := by
      rw [hstart]
      exact ⟨fit_move hfit call, cancelled_withdrawn hfit hcall⟩
    have hlast := inv_run (I := fun r => Fit r.world ∧ Cancelled id r.world.db) hstep hfirst hlater
    rw [hrun]
    exact over_of_cancelled hlast.1 hlast.2

end Smara.Session.Cancels
