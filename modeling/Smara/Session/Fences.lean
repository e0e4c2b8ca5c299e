import Smara.Session.Rows

/-! # The fence of a checkpoint

`checkpoint` and `recovery` find the latest turn of a thread by the time it was created; `begin` keeps
one turn of a thread active. The rows of a thread stand in the order in which its turns were begun.

* `active_last`: an active turn is the one that was begun last.
* `fenced_iff`: the fence lets through the active turn alone, and `recovery` resolves the last turn,
  exactly when the last turn was created at a later reading of the clock than all before. -/

namespace Smara.Session.Fences

open Lib.Machine Lib.Table Lib.Transaction
open TaskStore.Schema (Uuid Time)
open Goals.Schema (Json Uuids)
open Session.Schema Session.Envelope Session.Protocol Session.Steps
open Session.Effects Session.Links Session.Endings Session.Rows

variable {uuids : Uuids} {w : World} {op : Op} {db db' : SessionDb} {env : Env} {id : String}

/-! ### `recovery` -/

/-- What `recovery` finds outside the ledger. -/
structure Disk where
  /-- the workspace of the checkpoint is the given one -/
  sameWorkspace : Json → Bool
  /-- the request, the tool profile and the research mode of the session of the checkpoint, if its id is
  well formed and its file is there -/
  session : Json → Option (List (String × Json))

/-- The turn of the thread that `recovery` resolves. -/
def recoveryTurn (id : String) (db : SessionDb) : Option Turn := latestTurn id db

def executionCheckpoint (turnId : Uuid) (db : SessionDb) : Option Json :=
  (db.items.filter fun i => i.turnId = turnId ∧ i.kind = "execution_checkpoint" ∧
    i.status = .completed).getLast?.map Item.payload

def recovery (host : Host) (disk : Disk) (id : String) (db : SessionDb) : Except Err Json :=
  match recoveryTurn id db with
  | none => .error (.valueError "This thread has no turn to resume")
  | some turn =>
    if turn.status.Active ∧ ¬ Orphaned host turn then
      .error (.valueError "The turn is still running; reconnect instead of resuming")
    else
      match executionCheckpoint turn.id db with
      | none => .error (.valueError "This turn has no canonical checkpoint; use Retry as a new turn")
      | some checkpoint =>
        if ¬ disk.sameWorkspace checkpoint then
          .error (.valueError "Resume workspace does not match the original execution")
        else
          match disk.session checkpoint with
          | none => .error (.valueError "Execution checkpoint is missing")
          | some session =>
            .ok (merged (match checkpoint with
              | .obj members => members
              | _ => []) (.obj session))

/-! ### The turns of a thread -/

def begun (id : String) (db : SessionDb) : List Turn := db.turns.filter fun t => t.threadId = id

def lastBegun (id : String) (db : SessionDb) : Option Turn := (begun id db).getLast?

/-- The turns of a ledger are those of another one, with other states. -/
structure Reshapes (g : Turn → Turn) (db : SessionDb) : Prop where
  id : ∀ t, (g t).id = t.id
  thread : ∀ t, (g t).threadId = t.threadId
  created : ∀ t, (g t).createdAt = t.createdAt
  active : ∀ t ∈ db.turns, (g t).status.Active → t.status.Active

theorem reshapes_id (db : SessionDb) : Reshapes (fun t => t) db :=
  ⟨fun _ => rfl, fun _ => rfl, fun _ => rfl, fun _ _ h => h⟩

theorem reshapes_ite {p : Turn → Prop} [DecidablePred p] {f : Turn → Turn}
    (hf : ∀ t, (f t).id = t.id ∧ (f t).threadId = t.threadId ∧ (f t).createdAt = t.createdAt)
    (hactive : ∀ t ∈ db.turns, p t → (f t).status.Active → t.status.Active) :
    Reshapes (fun t => if p t then f t else t) db := by
  refine ⟨fun t => ?_, fun t => ?_, fun t => ?_, fun t ht => ?_⟩
  · split_ifs
    · exact (hf t).1
    · rfl
  · split_ifs
    · exact (hf t).2.1
    · rfl
  · split_ifs
    · exact (hf t).2.2
    · rfl
  · split_ifs with hp
    · exact hactive t ht hp
    · exact id

theorem reshapes_ended {turnId : Uuid} {status : TurnStatus} (hs : ¬ status.Active) :
    Reshapes (fun t => if t.id = turnId then { t with status := status, endedAt := some env.now } else t)
      db :=
  reshapes_ite (fun _ => ⟨rfl, rfl, rfl⟩) fun _ _ _ h => absurd h hs

/-- What a change leaves of the turns, and the turn that it adds to a session without an active one. -/
inductive Turns (db db' : SessionDb) : Prop
  | same {g} (hg : Reshapes g db) (h : db'.turns = db.turns.map g)
  | adds {g t'} (hg : Reshapes g db) (h : db'.turns = db.turns.map g ++ [t'])
      (hs : (db.session t'.threadId).isSome)
      (hnone : ∀ t ∈ db.turns, t.threadId = t'.threadId → ¬ (g t).status.Active)

theorem turns_same (h : db'.turns = db.turns) : Turns db db' := by
  refine .same (reshapes_id db) ?_
  rw [h, List.map_id']

theorem turns_endTurn {threadId : String} {turnId : Uuid} {status : TurnStatus}
    (hs : ¬ status.Active) : Turns db (endTurn env threadId turnId status db) :=
  .same (reshapes_ended hs) endTurn_turns

theorem turns_of_change (h : Change uuids w op db') (hc : w.db.Constraints) : Turns w.db db' := by
  cases h with
  | quiet h => exact turns_same h.journal.turns
  | opens _ hs hnone h =>
    subst h
    refine .adds (reshapes_id w.db) (by rw [List.map_id']; rfl) hs fun t ht hthread hactive => ?_
    have hno := List.find?_eq_none.mp hnone t ht
    exact hno (decide_eq_true ⟨hthread, hactive⟩)
  | @recovers env threadId request mode mode' handler t hop _ hs hactive _ h =>
    subst h
    obtain ⟨hmem, hthread, hstatus⟩ := activeTurn_some hactive
    have hended : (recovered env threadId t.id w.db).turns = updateWhere (fun t' => t'.id = t.id)
        (fun t' => { t' with status := .needsInput, endedAt := some env.now }) w.db.turns :=
      endTurn_turns
    refine .adds (reshapes_ended (by decide))
      (congrArg (· ++ _) hended) hs fun t' ht' hthread' hactive' => ?_
    -- the only active turn of the thread is the one that has ended
    split_ifs at hactive' with hid
    · exact absurd hactive' (show ¬ TurnStatus.needsInput.Active by decide)
    · have hsame := hc.single.eq_of_key (List.mem_filter.mpr ⟨ht', decide_eq_true hactive'⟩)
        (List.mem_filter.mpr ⟨hmem, decide_eq_true hstatus⟩) (hthread'.trans hthread.symm)
      exact hid (congrArg Turn.id hsame)
  | @asks env j m e digest action _ _ _ ha h =>
    subst h
    have hg : Reshapes (fun t => if t.id = e.turnId then { t with status := .waitingApproval } else t)
        w.db := reshapes_ite (fun _ => ⟨rfl, rfl, rfl⟩) fun t ht hid _ =>
      active_of_mem hc.turns (hid ▸ ha) ht
    exact .same hg rfl
  | @resumes env j m e d _ _ _ h =>
    rw [← (Prod.mk.inj (Except.ok.inj h)).2]
    have hg : Reshapes (fun t => if t.id = e.turnId ∧ t.status = .waitingApproval then
        { t with status := .running } else t) w.db :=
      reshapes_ite (fun _ => ⟨rfl, rfl, rfl⟩) fun t _ hp _ => Or.inr hp.2
    exact .same hg rfl
  | progresses _ _ _ _ h =>
    rw [← (Prod.mk.inj (Except.ok.inj h)).2]
    exact turns_same rfl
  | @finishes env k p text answer status _ _ _ hs h =>
    subst h
    let db₀ := (answered env (uuids.draw w.drawn) p.threadId p.turnId p.messageId answer w.db).2
    have hended : (endTurn env p.threadId p.turnId status db₀).turns = _ := endTurn_turns
    rw [answered_turns] at hended
    exact .same (reshapes_ended hs) hended
  | interrupts _ _ h =>
    rcases endActive_cases hc h with ⟨-, rfl⟩ | ⟨t, -, rfl⟩
    · exact turns_same rfl
    · exact turns_endTurn (by decide)
  | starts _ _ h | closes _ _ h | streams _ _ h | responds _ _ _ _ _ _ _ h | expires _ _ h =>
    subst h
    exact turns_same rfl

/-! ### A thread is a session -/

def Housed (db : SessionDb) : Prop := ∀ t ∈ db.turns, (db.session t.threadId).isSome

theorem housed_next (hl : Linked w) (h : Housed w.db) (op : Op) : Housed (next uuids w op).db := by
  have hdoes : Does uuids w op (next uuids w op).db := does_next hl op
  have hmap : ∀ {g : Turn → Turn}, Reshapes g w.db → ∀ t ∈ w.db.turns.map g,
      (w.db.session t.threadId).isSome := by
    intro g hg t ht
    obtain ⟨t₀, ht₀, rfl⟩ := List.mem_map.mp ht
    rw [hg.thread]
    exact h t₀ ht₀
  intro t ht
  refine session_stays hl op ?_
  cases turns_of_change hdoes.change hl.constraints with
  | same hg hturns =>
    rw [hturns] at ht
    exact hmap hg t ht
  | adds hg hturns hs =>
    rw [hturns] at ht
    rcases List.mem_append.mp ht with ht | ht
    · exact hmap hg t ht
    · rw [List.mem_singleton.mp ht]
      exact hs

/-- What holds of a world without any condition on its run. -/
structure Regular (w : World) : Prop where
  settled : Settled w
  counted : Counted w.db
  housed : Housed w.db

theorem regular_empty : Regular {} :=
  ⟨settled_empty, fun _ he => absurd he List.not_mem_nil, fun _ ht => absurd ht List.not_mem_nil⟩

theorem regular_next (h : Regular w) (op : Op) : Regular (next uuids w op) :=
  ⟨settled_next h.settled op, counted_next h.settled.linked h.counted op,
    housed_next h.settled.linked h.housed op⟩

theorem regular_after (uuids : Uuids) (ops : List Op) : Regular (after uuids ops) :=
  inv_run (I := Regular) (G := fun _ _ => True) (fun _ op h _ => regular_next h op) regular_empty
    (along_of_forall fun _ _ => trivial)

/-! ### An active turn was begun last -/

theorem begun_map {g : Turn → Turn} (hg : Reshapes g db) (h : db'.turns = db.turns.map g) :
    begun id db' = (begun id db).map g := by
  unfold begun
  rw [h, List.filter_map]
  congr 1
  refine List.filter_congr fun t _ => ?_
  rw [Function.comp_apply, hg.thread]

theorem begun_append {ts : List Turn} {t : Turn} (h : db'.turns = ts ++ [t]) :
    begun id db' = ts.filter (fun t => t.threadId = id) ++ if t.threadId = id then [t] else [] := by
  unfold begun
  rw [h, List.filter_append]
  split_ifs with hid
  · simp [hid]
  · simp [hid]

def ActiveLast (db : SessionDb) : Prop :=
  ∀ t ∈ db.turns, t.status.Active → lastBegun t.threadId db = some t

theorem activeLast_of_turns (h : Turns db db') (hlast : ActiveLast db) : ActiveLast db' := by
  have hmap : ∀ {g : Turn → Turn} {ts : List Turn}, Reshapes g db → ts = db.turns.map g →
      ∀ t ∈ ts, t.status.Active →
        (ts.filter fun t' => t'.threadId = t.threadId).getLast? = some t := by
    rintro g ts hg rfl t ht hactive
    obtain ⟨t₀, ht₀, rfl⟩ := List.mem_map.mp ht
    have hwas := hlast t₀ ht₀ (hg.active t₀ ht₀ hactive)
    let reshaped : SessionDb := { db with turns := db.turns.map g }
    have hrows : begun t₀.threadId reshaped = (begun t₀.threadId db).map g := begun_map hg rfl
    have hrows' : (db.turns.map g).filter (fun t' => t'.threadId = t₀.threadId) =
        (begun t₀.threadId db).map g := hrows
    rw [hg.thread, hrows', List.getLast?_map]
    unfold lastBegun at hwas
    rw [hwas]
    rfl
  cases h with
  | same hg h =>
    intro t ht hactive
    rw [h] at ht
    unfold lastBegun begun
    rw [h]
    exact hmap hg rfl t ht hactive
  | @adds g t' hg h _ hnone =>
    intro t ht hactive
    unfold lastBegun
    rw [begun_append h]
    rw [h] at ht
    rcases List.mem_append.mp ht with ht | ht
    · have hother : t'.threadId ≠ t.threadId := by
        intro hthread
        obtain ⟨t₀, ht₀, rfl⟩ := List.mem_map.mp ht
        exact hnone t₀ ht₀ ((hg.thread t₀).symm.trans hthread.symm) hactive
      rw [if_neg hother, List.append_nil]
      exact hmap hg rfl t ht hactive
    · rw [List.mem_singleton.mp ht, if_pos rfl, List.getLast?_append_of_ne_nil _ (List.cons_ne_nil _ _)]
      rfl

theorem activeLast_after (uuids : Uuids) (ops : List Op) : ActiveLast (after uuids ops).db := by
  have hstep : ∀ w op, Linked w ∧ ActiveLast w.db → True → Linked (next uuids w op) ∧
      ActiveLast (next uuids w op).db := by
    intro w op h _
    have hdoes : Does uuids w op (next uuids w op).db := does_next h.1 op
    exact ⟨linked_next h.1 op, activeLast_of_turns (turns_of_change hdoes.change h.1.constraints) h.2⟩
  have hempty : ActiveLast ({} : World).db := fun t ht => absurd ht List.not_mem_nil
  exact (inv_run (G := fun _ _ => True) hstep ⟨linked_empty, hempty⟩
    (along_of_forall fun _ _ => trivial)).2

/-! ### The fence -/

/-- **The fence of the thread lets through its active turn alone**, and `recovery` resolves the turn
that was begun last. -/
structure Fenced (id : String) (db : SessionDb) : Prop where
  /-- a checkpoint that names a turn takes effect if that is the active turn, and else writes nothing -/
  checkpoint : ∀ env c status s turnId, c.named = .ok status → c.expectedTurnId = some turnId →
    db.session id = some s → checkpoint env id c db =
      .ok ((), if ∃ t ∈ activeTurn id db, t.id = turnId then checkpointed env c status s db else db)
  recovery : recoveryTurn id db = lastBegun id db

/-- The last turn of the thread was created at a later reading than those before. -/
def Later (id : String) (db : SessionDb) : Prop :=
  ∀ t ∈ lastBegun id db, ∀ t' ∈ begun id db, t'.id ≠ t.id → t'.createdAt < t.createdAt

/-- **The latest turn is the last one exactly when the clock has moved on.** -/
theorem latest_iff (hc : Keyed Turn.id db.turns) :
    latestTurn id db = lastBegun id db ↔ Later id db := by
  have hkeyed : Keyed Turn.id (begun id db) := hc.sublist (List.filter_sublist.map _)
  have hlatest : latestTurn id db = firstBy (fun t t' => t'.createdAt < t.createdAt) (begun id db) := rfl
  unfold Later lastBegun
  rw [hlatest]
  rcases List.eq_nil_or_concat (begun id db) with hnil | ⟨ts, t, hts⟩
  · rw [hnil]
    simp [firstBy]
  · rw [hts] at hkeyed ⊢
    rw [List.concat_eq_append] at hkeyed ⊢
    have hne : ∀ t' ∈ ts, t'.id ≠ t.id :=
      fun t' ht' => (keyed_append.mp hkeyed).2.2 t' ht' t (List.mem_singleton.mpr rfl)
    have hnew : t ∉ ts := fun h => hne t h rfl
    have hfirst : firstBy (fun t t' : Turn => t'.createdAt < t.createdAt) (ts ++ [t]) = some t ↔
        ∀ t' ∈ ts, t'.createdAt < t.createdAt := firstBy_append_singleton hnew
    rw [List.getLast?_append_of_ne_nil _ (List.cons_ne_nil _ _), List.getLast?_singleton, hfirst]
    constructor
    · intro h t₀ ht₀ t' ht' hid
      obtain rfl := Option.some.inj ht₀
      rcases List.mem_append.mp ht' with ht' | ht'
      · exact h t' ht'
      · exact absurd (congrArg Turn.id (List.mem_singleton.mp ht')) hid
    · exact fun h t' ht' => h t rfl t' (List.mem_append_left _ ht') (hne t' ht')

theorem current_iff (hlast : ActiveLast db) (h : latestTurn id db = lastBegun id db)
    {turnId : Uuid} : Current id (some turnId) db ↔ ∃ t ∈ activeTurn id db, t.id = turnId := by
  have hlatest : ∀ t, t ∈ latestTurn id db → t ∈ db.turns ∧ t.threadId = id := by
    intro t ht
    obtain ⟨hmem, hthread⟩ := List.mem_filter.mp (mem_of_firstBy ht)
    exact ⟨hmem, of_decide_eq_true hthread⟩
  constructor
  · intro hcurrent
    obtain ⟨t, ht, hid, hactive⟩ := hcurrent turnId rfl
    obtain ⟨hmem, hthread⟩ := hlatest t ht
    cases hfind : activeTurn id db with
    | none =>
      exact absurd (decide_eq_true ⟨hthread, hactive⟩) (List.find?_eq_none.mp hfind t hmem)
    | some t' =>
      obtain ⟨hmem', hthread', hactive'⟩ := activeTurn_some hfind
      have hwas := hlast t' hmem' hactive'
      rw [hthread', ← h, ht] at hwas
      obtain rfl := Option.some.inj hwas
      exact ⟨t, rfl, hid⟩
  · rintro ⟨t, ht, hid⟩ x hx
    obtain rfl := Option.some.inj hx
    obtain ⟨hmem, hthread, hactive⟩ := activeTurn_some ht
    have hwas := hlast t hmem hactive
    rw [hthread, ← h] at hwas
    exact ⟨t, hwas, hid, hactive⟩

theorem checkpoint_eq {c : Checkpoint} {status : Option SessionStatus} {s : RuntimeSession}
    (hnamed : c.named = .ok status) (hs : db.session id = some s) :
    checkpoint env id c db =
      .ok ((), if Current id c.expectedTurnId db then checkpointed env c status s db else db) := by
  unfold checkpoint
  rw [hnamed, hs]
  dsimp only [Bind.bind, Except.bind]
  split_ifs <;> rfl

/-- **The fence depends on the clock**: in every state that is reached it is right exactly when the last
turn of the thread was created at a later reading than all before. -/
theorem fenced_iff (uuids : Uuids) (ops : List Op) (id : String) :
    Fenced id (after uuids ops).db ↔ Later id (after uuids ops).db := by
  have hc := (linked_after uuids ops).constraints
  have hiff : latestTurn id (after uuids ops).db = lastBegun id (after uuids ops).db ↔
      Later id (after uuids ops).db := latest_iff hc.turns
  constructor
  · exact fun h => hiff.mp h.recovery
  · intro hlater
    have hlatest := hiff.mpr hlater
    refine ⟨fun env c status s turnId hnamed hexpected hs => ?_, hlatest⟩
    have hcurrent : Current id (some turnId) (after uuids ops).db ↔ _ :=
      current_iff (activeLast_after uuids ops) hlatest
    rw [checkpoint_eq hnamed hs, hexpected]
    congr 2
    exact if_congr hcurrent rfl rfl

/-- The clock has gone back between two turns: the fence still names the first one, which has ended. -/
theorem not_fenced_after_step_back : ¬ Fenced "chat" (after ids (firstSteps ++
    [.finish (clock 5) 0 "completed" "",
     .begin (clock 1) "chat" "Create another note" "auto" false])).db := by
  intro h
  have hrecovery := h.recovery
  revert hrecovery
  decide

end Smara.Session.Fences
