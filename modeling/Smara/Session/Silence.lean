import Smara.Lib.Journal
import Smara.Session.Numbers

/-! # The journal of a turn

The turns are the streams of the journal, closed by `turn.completed`. A step that writes lawfully keeps
the journal lawful (`writes_of_change`); a progress of an ended turn, and a `begin` that closes the
turn of a process that has ended, write after `turn.completed` and break it for good.

* `Silent`: every ended turn has one `turn.completed`, and no event of it has a larger number.
* `silent_iff`: a run leaves the journal silent exactly when it has no such step. -/

namespace Smara.Session.Silence

open Lib.Machine Lib.Table Lib.Transaction Lib.Journal
open TaskStore.Schema (Uuid Digest Time)
open Goals.Schema (Json Uuids)
open Session.Schema Session.Envelope Session.Protocol Session.Steps
open Session.Effects Session.Links Session.Endings
open Session.Numbers

variable {uuids : Uuids} {w w' : World} {op : Op} {db db' : SessionDb} {env : Env}
  {threadId : String} {turnId : Uuid} {status : TurnStatus}

/-! ### Streams -/

def standing (db : SessionDb) (turnId : Uuid) : Standing :=
  if Active turnId db then .opened
  else if turnId ∈ db.turns.map Turn.id then .closed
  else .new

def streams (db : SessionDb) : Streams Uuid Event := ⟨standing db, db.events⟩

theorem mem_of_active (h : Active turnId db) : turnId ∈ db.turns.map Turn.id := by
  obtain ⟨t, ht, -⟩ := h
  exact List.mem_map.mpr ⟨t, mem_of_lookup ht, key_of_lookup ht⟩

theorem standing_opened (h : Active turnId db) : standing db turnId = .opened := if_pos h

theorem standing_new (h : turnId ∉ db.turns.map Turn.id) : standing db turnId = .new := by
  unfold standing
  rw [if_neg fun ha => h (mem_of_active ha), if_neg h]

theorem standing_closed :
    standing db turnId = .closed ↔ turnId ∈ db.turns.map Turn.id ∧ ¬ Active turnId db := by
  unfold standing
  split_ifs with ha hmem
  · exact ⟨fun h => h.elim, fun h => absurd ha h.2⟩
  · exact iff_of_true rfl ⟨hmem, ha⟩
  · exact ⟨fun h => h.elim, fun h => absurd h.1 hmem⟩

theorem standing_congr {x : Uuid} (hids : x ∈ db'.turns.map Turn.id ↔ x ∈ db.turns.map Turn.id)
    (hactive : Active x db' ↔ Active x db) : standing db' x = standing db x := by
  unfold standing
  simp only [hids, hactive]

def Speaks (turnId : Uuid) (db db' : SessionDb) : Prop :=
  ∃ es, db'.events = db.events ++ es ∧ ∀ e ∈ es, e.turnId = turnId ∧ e.kind ≠ .turnCompleted

theorem Speaks.refl (turnId : Uuid) (db : SessionDb) : Speaks turnId db db :=
  ⟨[], (List.append_nil _).symm, fun _ h => absurd h List.not_mem_nil⟩

theorem Speaks.trans {db'' : SessionDb} (h : Speaks turnId db db') (h' : Speaks turnId db' db'') :
    Speaks turnId db db'' := by
  obtain ⟨es, he, hes⟩ := h
  obtain ⟨es', he', hes'⟩ := h'
  refine ⟨es ++ es', ?_, fun e hmem => ?_⟩
  · rw [he', he, List.append_assoc]
  · rcases List.mem_append.mp hmem with hmem | hmem
    · exact hes e hmem
    · exact hes' e hmem

theorem speaks_event {kind : EventKind} (hk : kind ≠ .turnCompleted) (payload : Json) (now : Time)
    (db : SessionDb) : Speaks turnId db (db.event threadId turnId kind payload now) := by
  refine ⟨[⟨db.eventSeq + 1, threadId, turnId, kind, payload, now⟩], rfl, fun e he => ?_⟩
  rw [List.mem_singleton.mp he]
  exact ⟨rfl, hk⟩

theorem speaks_closeItems (s : ItemStatus) (items : List Item) (db : SessionDb) :
    Speaks turnId db (closeItems env threadId turnId s items db) := by
  induction items generalizing db with
  | nil => exact Speaks.refl turnId db
  | cons i items ih =>
    have hclose : Speaks turnId db
        ((db.updItems (fun j => j.id = i.id) fun j => { j with status := s }).event threadId turnId
          .itemCompleted (.obj [("item_id", .str (itemName i.id)), ("status", .str s.text)]) env.now) :=
      speaks_event EventKind.noConfusion _ _ (db.updItems (fun j => j.id = i.id) _)
    exact hclose.trans (ih _)

theorem speaks_answered {fresh : Uuid} {messageId : Option Uuid} {answer : String} :
    Speaks turnId db (answered env fresh threadId turnId messageId answer db).2 := by
  have hcomplete : ∀ (id : Uuid) (payload : Json) (db : SessionDb),
      Speaks turnId db (completeMessage env threadId turnId id payload db) := fun id payload db =>
    speaks_event EventKind.noConfusion _ _ (db.updItems (fun i => i.id = id) _)
  have hinsert : ∀ (payload : Json), Speaks turnId db
      (insertItem env fresh threadId turnId "agent_message" payload db) := fun payload =>
    speaks_event EventKind.noConfusion _ _ { db with items := _ }
  unfold answered
  dsimp only
  split_ifs
  · exact Speaks.refl turnId db
  · cases messageId with
    | some id => exact hcomplete id _ db
    | none => exact (hinsert _).trans (hcomplete fresh _ _)

/-! ### Lawful writes -/

abbrev WritesTurn (db db' : SessionDb) : Prop :=
  Writes Event.turnId Event.kind .turnCompleted (streams db) (streams db')

theorem writes_speaks (ha : Active turnId db) (hs : Speaks turnId db db')
    (hids : db'.turns.map Turn.id = db.turns.map Turn.id) (hactive : ∀ x, Active x db' ↔ Active x db) :
    WritesTurn db db' := by
  obtain ⟨es, he, hes⟩ := hs
  have hstanding : ∀ x, standing db' x = standing db x :=
    fun x => standing_congr (by rw [hids]) (hactive x)
  refine ⟨fun e hmem => (hes e hmem).1, ?_, fun x _ => hstanding x, he⟩
  change Step EventKind.turnCompleted (standing db turnId) _ (standing db' turnId)
  rw [hstanding, standing_opened ha]
  refine .speaks fun hk => ?_
  obtain ⟨e, hmem, hk⟩ := List.mem_map.mp hk
  exact (hes e hmem).2 hk

theorem writes_opened (hnew : turnId ∉ db.turns.map Turn.id) {mode : ApprovalMode} :
    WritesTurn db (opened env turnId threadId mode db) := by
  have hnone : db.turn turnId = none :=
    lookup_eq_none.mpr fun t ht hid => hnew (List.mem_map.mpr ⟨t, ht, hid⟩)
  have hids : (opened env turnId threadId mode db).turns.map Turn.id =
      db.turns.map Turn.id ++ [turnId] := List.map_append
  refine Writes.mk (t := turnId) (fun e hmem => ?_) ?_ (fun x hx => ?_) rfl
  · rw [List.mem_singleton.mp hmem]
  · change Step EventKind.turnCompleted (standing db turnId) _
      (standing (opened env turnId threadId mode db) turnId)
    rw [standing_new hnew, standing_opened ((active_opened hnone).mpr (Or.inl rfl))]
    exact .opens fun h => EventKind.noConfusion (List.mem_singleton.mp h)
  · refine standing_congr ?_ ?_
    · rw [hids, List.mem_append, List.mem_singleton, or_iff_left hx]
    · rw [active_opened hnone, or_iff_right hx]

theorem events_endTurn (env : Env) (threadId : String) (turnId : Uuid) (status : TurnStatus)
    (db : SessionDb) : ∃ es e, (endTurn env threadId turnId status db).events = db.events ++ es ++ [e] ∧
      (∀ e ∈ es, e.turnId = turnId ∧ e.kind ≠ .turnCompleted) ∧ e.turnId = turnId ∧
      e.kind = .turnCompleted := by
  let db' := closeItems env threadId turnId (closedStatus status)
    (db.items.filter fun i => i.turnId = turnId ∧ i.status = .running) (endedTurn env turnId status db)
  have hclose : Speaks turnId (endedTurn env turnId status db) db' := speaks_closeItems _ _ _
  have hlast : ∃ e, (endTurn env threadId turnId status db).events = db'.events ++ [e] ∧
      e.turnId = turnId ∧ e.kind = .turnCompleted := ⟨_, rfl, rfl, rfl⟩
  obtain ⟨es, he, hes⟩ := hclose
  obtain ⟨e, he', ht, hk⟩ := hlast
  refine ⟨es, e, ?_, hes, ht, hk⟩
  rw [he', he]
  rfl

theorem writes_endTurn {db₀ : SessionDb} (ha : Active turnId db) (hspeaks : Speaks turnId db db₀)
    (hturns : db₀.turns = db.turns) (hs : ¬ status.Active) :
    WritesTurn db (endTurn env threadId turnId status db₀) := by
  obtain ⟨es, he, hes⟩ := hspeaks
  obtain ⟨es', e, he', hes', het, hek⟩ := events_endTurn env threadId turnId status db₀
  have hids : (endTurn env threadId turnId status db₀).turns.map Turn.id =
      db.turns.map Turn.id := by
    rw [ids_endTurn, hturns]
  have hactive : ∀ x, Active x (endTurn env threadId turnId status db₀) ↔
      x ≠ turnId ∧ Active x db := by
    intro x
    rw [active_endTurn hs, active_congr hturns]
  have hall : ∀ e ∈ es ++ es', e.turnId = turnId ∧ e.kind ≠ .turnCompleted := by
    intro e hmem
    rcases List.mem_append.mp hmem with hmem | hmem
    · exact hes e hmem
    · exact hes' e hmem
  have hevents : (endTurn env threadId turnId status db₀).events = db.events ++ (es ++ es' ++ [e]) := by
    rw [he', he]
    simp only [List.append_assoc]
  refine Writes.mk (t := turnId) ?_ ?_ (fun x hx => ?_) hevents
  · intro e' hmem
    rcases List.mem_append.mp hmem with hmem | hmem
    · exact (hall e' hmem).1
    · rw [List.mem_singleton.mp hmem]
      exact het
  · change Step EventKind.turnCompleted (standing db turnId) _
      (standing (endTurn env threadId turnId status db₀) turnId)
    have hclosed : standing (endTurn env threadId turnId status db₀) turnId = .closed := by
      refine standing_closed.mpr ⟨?_, fun h => ((hactive turnId).mp h).1 rfl⟩
      rw [hids]
      exact mem_of_active ha
    rw [standing_opened ha, hclosed, List.map_append, List.map_singleton, hek]
    refine .closes fun hk => ?_
    obtain ⟨e', hmem, hk⟩ := List.mem_map.mp hk
    exact (hall e' hmem).2 hk
  · refine standing_congr (by rw [hids]) ?_
    rw [hactive, and_iff_right hx]

/-! ### Disturbances -/

/-- The step does not write to a turn that has ended: a progress is of an active turn, and a `begin`
closes no turn of a process that has ended. -/
def Undisturbed (w : World) : Op → Prop
  | .progress _ k kind _ => ∀ p ∈ w.turns[k]?, journaled kind → Active p.turnId w.db
  | .begin env threadId request mode _ =>
    (beginChecked request mode).isOk → (w.db.session threadId).isSome →
      ∀ t ∈ activeTurn threadId w.db, ¬ Orphaned env.host t
  | _ => True

/-- **An undisturbed step writes lawfully, or it writes nothing to the journal.** -/
theorem writes_of_change (h : Change uuids w op db') (hsettled : Settled w) (hdrawn : Drawn uuids w)
    (hu : Undisturbed w op) : streams db' = streams w.db ∨ WritesTurn w.db db' := by
  have hc := hsettled.linked.constraints
  cases h with
  | quiet hq =>
    have h := hq.journal
    left
    unfold streams
    rw [h.events]
    congr 1
    funext x
    exact standing_congr (by rw [h.turns]) (active_congr h.turns)
  | opens _ _ _ h =>
    subst h
    exact Or.inr (writes_opened hdrawn.new)
  | recovers hop hchecked hs ht ho _ =>
    subst hop
    refine absurd ho (hu ?_ hs _ ht)
    rw [hchecked]
    rfl
  | starts _ ha h =>
    subst h
    exact Or.inr (writes_speaks ha ⟨[_], rfl, by simp⟩ rfl fun _ => Iff.rfl)
  | @closes env threadId turnId itemId payload status _ hi h =>
    subst h
    obtain ⟨i, hi, -, rfl, hr⟩ := hi
    exact Or.inr (writes_speaks (hsettled.sound.items i hi hr) ⟨[_], rfl, by simp⟩ rfl fun _ => Iff.rfl)
  | @streams env threadId i text hi hr h =>
    subst h
    exact Or.inr (writes_speaks (hsettled.sound.items i hi hr) ⟨[_], rfl, by simp⟩ rfl fun _ => Iff.rfl)
  | @progresses env k p kind data hop hp hkind hk h =>
    subst hop
    have ha : Active p.turnId w.db := hu p hp hkind
    obtain rfl := (Prod.mk.inj (Except.ok.inj h)).2
    refine Or.inr (writes_speaks ha ?_ rfl fun _ => Iff.rfl)
    split_ifs
    · exact ⟨[_], rfl, by simp⟩
    · exact ⟨[_], rfl, by simp⟩
  | asks _ _ _ ha h =>
    subst h
    exact Or.inr (writes_speaks ha ⟨[_], rfl, by simp⟩ (map_updateWhere fun _ _ => rfl)
      fun _ => active_insertApproval ha)
  | responds _ _ _ _ _ hactive _ h =>
    subst h
    exact Or.inr (writes_speaks hactive ⟨[_], rfl, by simp⟩ rfl fun _ => Iff.rfl)
  | @expires env threadId a hmem hp h =>
    subst h
    exact Or.inr (writes_speaks (hsettled.sound.approvals a hmem hp) ⟨[_], rfl, by simp⟩ rfl
      fun _ => Iff.rfl)
  | @resumes env j m e d _ _ _ h =>
    left
    have hactive : ∀ x, Active x db' ↔ Active x w.db := fun x => active_resumeTurn h
    obtain rfl := (Prod.mk.inj (Except.ok.inj h)).2
    have hids : (w.db.updTurns (fun t => t.id = e.turnId ∧ t.status = .waitingApproval)
        fun t => { t with status := .running }).turns.map Turn.id = w.db.turns.map Turn.id :=
      map_updateWhere fun _ _ => rfl
    unfold streams
    congr 1
    funext x
    exact standing_congr (by rw [hids]) (hactive x)
  | finishes _ _ ha hs h =>
    subst h
    exact Or.inr (writes_endTurn ha speaks_answered answered_turns hs)
  | @interrupts env j threadId _ _ h =>
    rcases endActive_cases hc h with ⟨-, rfl⟩ | ⟨t, ht, rfl⟩
    · exact Or.inl rfl
    · obtain ⟨hmem, -, hactive⟩ := activeTurn_some ht
      exact Or.inr (writes_endTurn ((active_iff hc.turns).mpr ⟨t, hmem, rfl, hactive⟩)
        (Speaks.refl _ _) rfl (by decide))

/-! ### What disturbances break -/

abbrev BrokenTurn (db : SessionDb) : Prop :=
  Broken Event.turnId Event.kind .turnCompleted (streams db)

abbrev LawfulTurns (db : SessionDb) : Prop :=
  Lawful Event.turnId Event.kind .turnCompleted (streams db)

theorem andThen_commits {β : Type} {body : SessionDb → Except Err (β × SessionDb)} {b : β}
    {k : β → World → World} (hb : body w.db = .ok (b, db')) (hc : db'.Constraints) :
    w.andThen body k = k b { w with db := db', drawn := w.drawn + 1 } := by
  have he : transaction body w.db = (.ok b, db') := commit_of_ok hb hc
  unfold World.andThen
  rw [he]

theorem write_commits {β : Type} {body : SessionDb → Except Err (β × SessionDb)} {b : β}
    (hb : body w.db = .ok (b, db')) (hc : db'.Constraints) : (w.write body).db = db' := by
  have he : transaction body w.db = (.ok b, db') := commit_of_ok hb hc
  exact congrArg Prod.snd he

theorem broken_of_progress (hl : Linked w) (hlawful : LawfulTurns w.db) {k : ℕ} {kind : String}
    {data : Json} {p : ProtocolTurn} (hp : w.turns[k]? = some p) (hkind : journaled kind)
    (ha : ¬ Active p.turnId w.db) : BrokenTurn (next uuids w (.progress env k kind data)).db := by
  obtain ⟨t, ht, hid, -⟩ := (hl.turns p (List.mem_of_getElem? hp)).known
  have hanswer : kind ≠ "answer" := by
    rintro rfl
    exact absurd hkind (by decide)
  let eventKind : EventKind := if kind = "context_packed" then .turnContext else .turnProgress
  let db' := w.db.event p.threadId p.turnId eventKind
    (merged [("phase", .str kind)] (safe env.host data)) env.now
  have hnext : (next uuids w (.progress env k kind data)).db = db' := by
    simp only [next]
    unfold World.onTurn
    rw [hp]
    simp only [World.progress, if_neg hanswer, if_pos hkind]
    exact write_commits rfl (constraints_event hl.constraints _ _ _)
  rw [hnext]
  have hclosed : standing w.db p.turnId = .closed :=
    standing_closed.mpr ⟨List.mem_map.mpr ⟨t, ht, hid⟩, ha⟩
  exact hlawful.late (t := p.turnId) hclosed hclosed rfl (List.mem_singleton.mpr rfl) rfl

theorem begins_of_recovery (fresh : Uuid) {request mode : String}
    (hchecked : (beginChecked request mode).isOk) (hs : (db.session threadId).isSome) {t : Turn}
    (ht : activeTurn threadId db = some t) (ho : Orphaned env.host t) :
    ∃ mode', begin env fresh threadId request mode db =
      .ok (mode', opened env fresh threadId mode' (recovered env threadId t.id db)) := by
  obtain ⟨s, hs⟩ := Option.isSome_iff_exists.mp hs
  unfold begin
  cases hmode : beginChecked request mode with
  | error e =>
    rw [hmode] at hchecked
    cases hchecked
  | ok mode' =>
    refine ⟨mode', ?_⟩
    rw [hs, ht]
    simp only [if_pos ho]
    rfl

theorem constraints_recovery (hc : db.Constraints) (hnew : turnId ∉ db.turns.map Turn.id) {t : Turn}
    (ht : activeTurn threadId db = some t) {mode : ApprovalMode} :
    (opened env turnId threadId mode (recovered env threadId t.id db)).Constraints := by
  obtain ⟨hmem, hthread, hactive⟩ := activeTurn_some ht
  refine constraints_opened (constraints_event (constraints_endTurn hc (by decide)) _ _ _) ?_ ?_
  · have hids := ids_endTurn env threadId t.id .needsInput db
    exact fun h => hnew (hids ▸ h)
  · intro t' ht' hactive' hthread'
    change t' ∈ (endTurn env threadId t.id .needsInput db).turns at ht'
    rw [endTurn_turns] at ht'
    obtain ⟨t₀, ht₀, rfl⟩ := mem_updateWhere.mp ht'
    split_ifs at hactive' hthread' with hid
    · exact absurd hactive' (show ¬ TurnStatus.needsInput.Active by decide)
    · have hsame := hc.single.eq_of_key
        (List.mem_filter.mpr ⟨ht₀, decide_eq_true hactive'⟩)
        (List.mem_filter.mpr ⟨hmem, decide_eq_true hactive⟩) (hthread'.trans hthread.symm)
      exact hid (congrArg Turn.id hsame)

theorem broken_of_recovery (hl : Linked w) (hdrawn : Drawn uuids w) {request mode : String}
    {handler : Bool} (hchecked : (beginChecked request mode).isOk)
    (hs : (w.db.session threadId).isSome) {t : Turn} (ht : activeTurn threadId w.db = some t)
    (ho : Orphaned env.host t) :
    BrokenTurn (next uuids w (.begin env threadId request mode handler)).db := by
  obtain ⟨mode', hmode⟩ := begins_of_recovery (uuids.draw w.drawn) hchecked hs ht ho
  obtain ⟨hmem, -, hactive⟩ := activeTurn_some ht
  let db' := opened env (uuids.draw w.drawn) threadId mode' (recovered env threadId t.id w.db)
  have hkeys : db'.Constraints := constraints_recovery hl.constraints hdrawn.new ht
  have hnext : (next uuids w (.begin env threadId request mode handler)).db = db' := by
    rw [next, andThen_commits hmode hkeys]
    rfl
  rw [hnext]
  obtain ⟨es, e, he, -, het, hek⟩ := events_endTurn env threadId t.id .needsInput w.db
  have htail : ∃ e₁ e₂ : Event, db'.events =
      (endTurn env threadId t.id .needsInput w.db).events ++ [e₁] ++ [e₂] ∧ e₁.turnId = t.id :=
    ⟨_, _, rfl, rfl⟩
  obtain ⟨e₁, e₂, htail, he₁⟩ := htail
  have hne : t.id ≠ uuids.draw w.drawn :=
    fun h => hdrawn.new (List.mem_map.mpr ⟨t, hmem, h⟩)
  have hids : (recovered env threadId t.id w.db).turns.map Turn.id = w.db.turns.map Turn.id :=
    ids_endTurn env threadId t.id .needsInput w.db
  have hnew : (recovered env threadId t.id w.db).turn (uuids.draw w.drawn) = none := by
    refine lookup_eq_none.mpr fun t' ht' hid => hdrawn.new ?_
    rw [← hids]
    exact List.mem_map.mpr ⟨t', ht', hid⟩
  have hclosed : standing db' t.id = .closed := by
    refine standing_closed.mpr ⟨?_, fun h => ?_⟩
    · have happ : db'.turns.map Turn.id =
          (recovered env threadId t.id w.db).turns.map Turn.id ++ [uuids.draw w.drawn] :=
        List.map_append
      rw [happ, hids]
      exact List.mem_append_left _ (List.mem_map.mpr ⟨t, hmem, rfl⟩)
    · rcases (active_opened hnew).mp h with h | h
      · exact hne h
      · exact ((active_endTurn (by decide)).mp h).1 rfl
  have hevents : db'.events = w.db.events ++ es ++ e :: [e₁, e₂] := by
    rw [htail, he]
    simp only [List.append_assoc, List.cons_append, List.nil_append]
  exact broken_of_late hclosed hevents het hek List.mem_cons_self he₁

/-- **A disturbance breaks the journal.** -/
theorem broken_of_disturbed (hl : Linked w) (hdrawn : Drawn uuids w) (hlawful : LawfulTurns w.db)
    (hu : ¬ Undisturbed w op) : BrokenTurn (next uuids w op).db := by
  unfold Undisturbed at hu
  split at hu
  · push Not at hu
    obtain ⟨p, hp, hkind, ha⟩ := hu
    exact broken_of_progress hl hlawful hp hkind ha
  · push Not at hu
    obtain ⟨hchecked, hs, t, ht, ho⟩ := hu
    exact broken_of_recovery hl hdrawn hchecked hs ht ho
  · exact absurd trivial hu

theorem BrokenTurn.next (h : BrokenTurn w.db) (hl : Linked w) (op : Op) :
    BrokenTurn (next uuids w op).db := by
  have hdoes : Does uuids w op (Steps.next uuids w op).db := does_next hl op
  have hg := hdoes.change.grows hl.constraints
  refine h.extends ⟨fun t ht => ?_, hg.events⟩
  obtain ⟨hmem, hactive⟩ := standing_closed.mp ht
  obtain ⟨t', ht', rfl⟩ := List.mem_map.mp hmem
  obtain ⟨t'', ht'', hid, -, hactive'⟩ := hg.turns t' ht'
  refine standing_closed.mpr ⟨List.mem_map.mpr ⟨t'', ht'', hid⟩, fun ha => hactive ?_⟩
  rw [← hid] at ha
  exact (active_iff hl.constraints.turns).mpr
    ⟨t', ht', rfl, hactive' (active_of_mem hdoes.constraints.turns ha ht'')⟩

/-! ### Silence along a run -/

/-- **Every ended turn has one `turn.completed`, and no event of it has a larger number.** -/
def Silent (db : SessionDb) : Prop :=
  ∀ t ∈ db.turns, ¬ t.status.Active →
    (db.events.filter fun e => e.turnId = t.id ∧ e.kind = .turnCompleted).length = 1 ∧
    ∀ c ∈ db.events, c.turnId = t.id → c.kind = .turnCompleted →
      ∀ e ∈ db.events, e.turnId = t.id → e.sequence ≤ c.sequence

instance (db : SessionDb) : Decidable (Silent db) :=
  inferInstanceAs (Decidable (∀ t ∈ db.turns, _ → _ ∧ _))

theorem silent_of_lawful (hc : db.Constraints) (hn : Numbered db) (h : LawfulTurns db) :
    Silent db := by
  intro t ht hactive
  have hclosed : standing db t.id = .closed :=
    standing_closed.mpr ⟨List.mem_map.mpr ⟨t, ht, rfl⟩, fun ha => hactive (active_of_mem hc.turns ha ht)⟩
  have hfits := h t.id
  rw [show (streams db).standing t.id = .closed from hclosed] at hfits
  exact (ended_iff hn.ordered).mp hfits

theorem not_silent_of_broken (hc : db.Constraints) (hn : Numbered db) (h : BrokenTurn db) :
    ¬ Silent db := by
  intro hsilent
  obtain ⟨turnId, hclosed, hk⟩ := h
  obtain ⟨hmem, hactive⟩ := standing_closed.mp hclosed
  obtain ⟨t, ht, rfl⟩ := List.mem_map.mp hmem
  have hfits : Fits EventKind.turnCompleted .closed
      (kinds Event.turnId Event.kind t.id (streams db).entries) := by
    refine (ended_iff hn.ordered).mpr (hsilent t ht fun ha => hactive ?_)
    exact (active_iff hc.turns).mpr ⟨t, ht, rfl, ha⟩
  exact hfits.notMem_dropLast hk

/-- What holds of a world in every run. -/
structure Recorded (uuids : Uuids) (w : World) : Prop where
  settled : Settled w
  numbered : Numbered w.db
  drawn : Drawn uuids w

theorem recorded_empty : Recorded uuids {} :=
  ⟨settled_empty, ⟨List.Pairwise.nil, by simp, by simp⟩, by simp [Drawn]⟩

theorem recorded_next (h : Recorded uuids w) (op : Op) : Recorded uuids (next uuids w op) :=
  ⟨settled_next h.settled op, (appends_next h.settled.linked op).numbered h.numbered,
    drawn_next h.settled.linked h.drawn op⟩

theorem lawful_next (h : Recorded uuids w) (hlawful : LawfulTurns w.db) (hu : Undisturbed w op) :
    LawfulTurns (next uuids w op).db := by
  have hdoes : Does uuids w op (next uuids w op).db := does_next h.settled.linked op
  rcases writes_of_change hdoes.change h.settled h.drawn hu with hsame | hw
  · unfold LawfulTurns
    rw [hsame]
    exact hlawful
  · exact hlawful.writes hw

theorem lawful_empty : LawfulTurns {} := by
  intro t
  have hnew : standing {} t = .new := standing_new List.not_mem_nil
  rw [show (streams {}).standing t = .new from hnew]
  rfl

/-- **A run leaves the journal silent exactly when all its steps are undisturbed.** -/
theorem silent_iff (uuids : Uuids) (ops : List Op) :
    Silent (after uuids ops).db ↔ Along (next uuids) Undisturbed {} ops := by
  have hkeep : ∀ w op, Recorded uuids w ∧ LawfulTurns w.db → Undisturbed w op →
      Recorded uuids (next uuids w op) ∧ LawfulTurns (next uuids w op).db :=
    fun w op h hu => ⟨recorded_next h.1 op, lawful_next h.1 h.2 hu⟩
  have hempty : Recorded uuids {} ∧ LawfulTurns ({} : World).db := ⟨recorded_empty, lawful_empty⟩
  constructor
  · intro hsilent
    have hbreak : ∀ w op, Recorded uuids w ∧ LawfulTurns w.db → ¬ Undisturbed w op →
        Recorded uuids (next uuids w op) ∧ BrokenTurn (next uuids w op).db := fun w op h hu =>
      ⟨recorded_next h.1 op, broken_of_disturbed h.1.settled.linked h.1.drawn h.2 hu⟩
    have hstay : ∀ w op, Recorded uuids w ∧ BrokenTurn w.db →
        Recorded uuids (next uuids w op) ∧ BrokenTurn (next uuids w op).db :=
      fun w op h => ⟨recorded_next h.1 op, h.2.next h.1.settled.linked op⟩
    rcases along_or_broken hkeep hbreak hstay hempty with ⟨hu, -⟩ | ⟨hrec, hbroken⟩
    · exact hu
    · exact absurd hsilent
        (not_silent_of_broken hrec.settled.linked.constraints hrec.numbered hbroken)
  · intro hu
    obtain ⟨hrec, hlawful⟩ := inv_run hkeep hempty hu
    exact silent_of_lawful hrec.settled.linked.constraints hrec.numbered hlawful

/-- A worker reports its progress after a client has interrupted its turn. -/
theorem not_silent_after_interrupt :
    ¬ Silent (after ids (firstSteps ++ [.interrupt (clock 5) "chat", .rest (clock 6) 1,
      .progress (clock 7) 0 "model_request" (.obj [])])).db := by
  decide

end Smara.Session.Silence
