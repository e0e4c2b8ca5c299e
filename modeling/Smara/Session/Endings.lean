import Smara.Session.Links

/-! # Turns that end

`endTurn` closes what is open of a turn; `endActive` ends the one active turn of a thread. From this
every change keeps `Sound`: what is running or pending belongs to an active turn. -/

namespace Smara.Session.Endings

open Lib.Machine Lib.Table Lib.Transaction
open TaskStore.Schema (Uuid Digest Time)
open Goals.Schema (Json Uuids)
open Session.Schema Session.Envelope Session.Protocol Session.Steps
open Session.Effects Session.Links

variable {uuids : Uuids} {w w' : World} {op : Op} {db db' : SessionDb} {env : Env}
  {threadId : String} {turnId : Uuid} {status : TurnStatus}

/-! ### The end of a turn -/

theorem closeItems_turns (s : ItemStatus) (items : List Item) (db : SessionDb) :
    (closeItems env threadId turnId s items db).turns = db.turns := by
  induction items generalizing db with
  | nil => rfl
  | cons i items ih => exact ih _

theorem closeItems_approvals (s : ItemStatus) (items : List Item) (db : SessionDb) :
    (closeItems env threadId turnId s items db).approvals = db.approvals := by
  induction items generalizing db with
  | nil => rfl
  | cons i items ih => exact ih _

theorem closeItems_items (s : ItemStatus) (items : List Item) (db : SessionDb) :
    (closeItems env threadId turnId s items db).items =
      updateWhere (fun j => j.id ∈ items.map Item.id) (fun j => { j with status := s }) db.items := by
  induction items generalizing db with
  | nil => exact (updateWhere_eq_self fun _ _ h => List.not_mem_nil h).symm
  | cons i items ih =>
    rw [closeItems, ih]
    simp only [SessionDb.event, SessionDb.updItems, updateWhere, List.map_map]
    refine List.map_congr_left fun j _ => ?_
    by_cases hj : j.id = i.id
    · have hhead : j.id ∈ (i :: items).map Item.id := by
        rw [hj]
        exact List.mem_cons_self
      rw [Function.comp_apply, if_pos hj, if_pos hhead, ite_self]
    · have hcons : j.id ∈ (i :: items).map Item.id ↔ j.id ∈ items.map Item.id := by
        rw [List.map_cons, List.mem_cons, or_iff_right hj]
      rw [Function.comp_apply, if_neg hj]
      exact if_congr hcons.symm rfl rfl

theorem endTurn_items (hc : Keyed Item.id db.items) :
    (endTurn env threadId turnId status db).items =
      updateWhere (fun i => i.turnId = turnId ∧ i.status = .running)
        (fun i => { i with status := closedStatus status }) db.items := by
  have hids : ∀ i ∈ db.items,
      i.id ∈ (db.items.filter fun i => i.turnId = turnId ∧ i.status = .running).map Item.id ↔
        i.turnId = turnId ∧ i.status = .running := by
    intro i hi
    constructor
    · intro h
      obtain ⟨i', hi', hid⟩ := List.mem_map.mp h
      obtain ⟨hmem, hrunning⟩ := List.mem_filter.mp hi'
      rw [← hc.eq_of_key hmem hi hid]
      exact of_decide_eq_true hrunning
    · exact fun h => List.mem_map_of_mem (List.mem_filter.mpr ⟨hi, decide_eq_true h⟩)
  change (closeItems env threadId turnId _ _ (endedTurn env turnId status db)).items = _
  rw [closeItems_items]
  refine List.map_congr_left fun i hi => ?_
  by_cases h : i.turnId = turnId ∧ i.status = .running
  · rw [if_pos h, if_pos ((hids i hi).mpr h)]
  · rw [if_neg h, if_neg fun h' => h ((hids i hi).mp h')]

theorem endTurn_turns :
    (endTurn env threadId turnId status db).turns = updateWhere (fun t => t.id = turnId)
      (fun t => { t with status := status, endedAt := some env.now }) db.turns :=
  closeItems_turns _ _ _

theorem endTurn_approvals :
    (endTurn env threadId turnId status db).approvals =
      updateWhere (fun a => a.turnId = turnId ∧ a.decision = .pending)
        (fun a => { a with decision := .expired }) db.approvals := closeItems_approvals _ _ _

/-! ### Active turns -/

theorem active_congr (h : db'.turns = db.turns) {x : Uuid} : Active x db' ↔ Active x db := by
  unfold Active SessionDb.turn
  rw [h]

theorem active_updTurns {p : Turn → Prop} [DecidablePred p] {f : Turn → Turn}
    (hid : ∀ t, (f t).id = t.id) {x : Uuid} :
    Active x (db.updTurns p f) ↔ ∃ t ∈ db.turn x, (if p t then f t else t).status.Active := by
  have hlookup : (db.updTurns p f).turn x = (db.turn x).map fun t => if p t then f t else t :=
    lookup_updateWhere fun t _ => hid t
  unfold Active
  rw [hlookup]
  simp only [Option.mem_def, Option.map_eq_some_iff]
  constructor
  · rintro ⟨t', ⟨t, ht, rfl⟩, hactive⟩
    exact ⟨t, ht, hactive⟩
  · rintro ⟨t, ht, hactive⟩
    exact ⟨_, ⟨t, ht, rfl⟩, hactive⟩

theorem id_of_turn {x : Uuid} {t : Turn} (h : t ∈ db.turn x) : t.id = x := key_of_lookup h

/-- **The end of a turn is the end of that turn alone.** -/
theorem active_endTurn (hs : ¬ status.Active) {x : Uuid} :
    Active x (endTurn env threadId turnId status db) ↔ x ≠ turnId ∧ Active x db := by
  have hturns : (endTurn env threadId turnId status db).turns =
      (db.updTurns (fun t => t.id = turnId)
        fun t => { t with status := status, endedAt := some env.now }).turns := endTurn_turns
  rw [active_congr hturns, active_updTurns]
  swap
  · exact fun _ => rfl
  constructor
  · rintro ⟨t, ht, hactive⟩
    by_cases hid : t.id = turnId
    · rw [if_pos hid] at hactive
      exact absurd hactive hs
    · rw [if_neg hid] at hactive
      exact ⟨fun hx => hid ((id_of_turn ht).trans hx), t, ht, hactive⟩
  · rintro ⟨hx, t, ht, hactive⟩
    have hid : t.id ≠ turnId := fun hid => hx ((id_of_turn ht).symm.trans hid)
    refine ⟨t, ht, ?_⟩
    rw [if_neg hid]
    exact hactive

theorem active_opened (hnew : db.turn turnId = none) {mode : ApprovalMode} {x : Uuid} :
    Active x (opened env turnId threadId mode db) ↔ x = turnId ∨ Active x db := by
  obtain ⟨t, hid, hstatus, hturns⟩ : ∃ t : Turn, t.id = turnId ∧ t.status = .running ∧
      (opened env turnId threadId mode db).turns = db.turns ++ [t] := ⟨_, rfl, rfl, rfl⟩
  have hlookup : (opened env turnId threadId mode db).turn x =
      (db.turn x).or (lookup Turn.id x [t]) := by
    unfold SessionDb.turn
    rw [hturns, lookup_append]
  unfold Active
  rw [hlookup]
  by_cases hx : x = turnId
  · subst hx
    rw [hnew]
    simp [lookup, hid, hstatus, TurnStatus.Active]
  · have hnone : lookup Turn.id x [t] = none := by
      refine lookup_eq_none.mpr fun t' ht' h => hx ?_
      rw [List.mem_singleton.mp ht', hid] at h
      exact h.symm
    rw [hnone, Option.or_none, or_iff_right hx]

theorem new_of_opened {mode : ApprovalMode}
    (h : (opened env turnId threadId mode db).Constraints) : db.turn turnId = none := by
  have hkeys := (keyed_append.mp h.turns).2.2
  exact lookup_eq_none.mpr fun t ht => hkeys t ht _ (List.mem_singleton.mpr rfl)

theorem active_insertApproval {approvalId itemId : Uuid} {digest : Digest} {action : Json}
    (h : Active turnId db) {x : Uuid} :
    Active x (insertApproval env approvalId threadId turnId itemId digest action db) ↔
      Active x db := by
  have hturns : (insertApproval env approvalId threadId turnId itemId digest action db).turns =
      (db.updTurns (fun t => t.id = turnId) fun t => { t with status := .waitingApproval }).turns := rfl
  rw [active_congr hturns, active_updTurns]
  swap
  · exact fun _ => rfl
  constructor
  · rintro ⟨t, ht, hactive⟩
    by_cases hid : t.id = turnId
    · rw [← id_of_turn ht, hid]
      exact h
    · rw [if_neg hid] at hactive
      exact ⟨t, ht, hactive⟩
  · rintro ⟨t, ht, hactive⟩
    refine ⟨t, ht, ?_⟩
    split_ifs
    · exact Or.inr rfl
    · exact hactive

theorem active_resumeTurn {u : Unit} (h : resumeTurn turnId db = .ok (u, db')) {x : Uuid} :
    Active x db' ↔ Active x db := by
  rw [← (Prod.mk.inj (Except.ok.inj h)).2, active_updTurns]
  swap
  · exact fun _ => rfl
  unfold Active
  refine exists_congr fun t => and_congr_right fun _ => ?_
  split_ifs with hp
  · exact iff_of_true (Or.inl rfl) (Or.inr hp.2)
  · exact Iff.rfl

theorem answered_turns {fresh : Uuid} {messageId : Option Uuid} {answer : String} :
    (answered env fresh threadId turnId messageId answer db).2.turns = db.turns := by
  unfold answered
  dsimp only
  split_ifs
  · rfl
  · cases messageId <;> rfl

/-! ### The active turn of a thread -/

theorem filter_active (hc : db.Constraints) (threadId : String) :
    (db.turns.filter fun t => t.threadId = threadId ∧ t.status.Active) =
      (activeTurn threadId db).toList := by
  have hfind : activeTurn threadId db =
      (db.turns.filter fun t => t.threadId = threadId ∧ t.status.Active).head? := by
    rw [List.head?_filter]
    rfl
  have hsub : (db.turns.filter fun t => t.threadId = threadId ∧ t.status.Active).Sublist
      (db.turns.filter fun t => t.status.Active) := by
    refine List.monotone_filter_right _ fun t ht => ?_
    exact decide_eq_true (of_decide_eq_true ht).2
  have hkeyed : Keyed Turn.threadId
      (db.turns.filter fun t => t.threadId = threadId ∧ t.status.Active) :=
    hc.single.sublist (hsub.map _)
  have hthread : ∀ t ∈ db.turns.filter fun t => t.threadId = threadId ∧ t.status.Active,
      t.threadId = threadId := fun t ht => (of_decide_eq_true (List.mem_filter.mp ht).2).1
  rw [hfind]
  generalize db.turns.filter (fun t => t.threadId = threadId ∧ t.status.Active) = ts at hkeyed hthread
  match ts with
  | [] => rfl
  | [t] => rfl
  | t :: t' :: ts =>
    have hsame : t.threadId = t'.threadId :=
      (hthread t List.mem_cons_self).trans
        (hthread t' (List.mem_cons_of_mem _ List.mem_cons_self)).symm
    have hnot := (List.nodup_cons.mp hkeyed).1
    exact absurd (hsame ▸ List.mem_cons_self) hnot

theorem activeTurn_some {t : Turn} (h : activeTurn threadId db = some t) :
    t ∈ db.turns ∧ t.threadId = threadId ∧ t.status.Active :=
  ⟨List.mem_of_find?_eq_some h, by simpa using List.find?_some h⟩

/-- **`endActive` ends the active turn, if there is one.** -/
theorem endActive_cases (hc : db.Constraints) {u : Unit} (h : endActive env threadId db = .ok (u, db')) :
    (activeTurn threadId db = none ∧ db' = db) ∨
      ∃ t, activeTurn threadId db = some t ∧ db' = endTurn env threadId t.id .cancelled db := by
  have hdb := (Prod.mk.inj (Except.ok.inj h)).2
  rw [filter_active hc threadId] at hdb
  cases hactive : activeTurn threadId db with
  | none =>
    rw [hactive] at hdb
    exact Or.inl ⟨rfl, hdb.symm⟩
  | some t =>
    rw [hactive] at hdb
    exact Or.inr ⟨t, rfl, hdb.symm⟩

/-! ### Keys -/

theorem endTurn_keyed : Keyed Item.id (endTurn env threadId turnId status db).items ↔
    Keyed Item.id db.items := by
  have hitems : (endTurn env threadId turnId status db).items =
      (closeItems env threadId turnId (closedStatus status)
        (db.items.filter fun i => i.turnId = turnId ∧ i.status = .running)
        (endedTurn env turnId status db)).items := rfl
  rw [hitems, closeItems_items]
  exact keyed_updateWhere fun _ _ => rfl

theorem constraints_event (hc : db.Constraints) (kind : EventKind) (payload : Json) (now : Time) :
    (db.event threadId turnId kind payload now).Constraints :=
  ⟨hc.sessions, hc.sessionEvents, hc.turns, hc.single, hc.items, hc.approvals⟩

theorem constraints_endTurn (hc : db.Constraints) (hs : ¬ status.Active) :
    (endTurn env threadId turnId status db).Constraints := by
  have hsame : ∀ (s : ItemStatus) (items : List Item) (db : SessionDb),
      (closeItems env threadId turnId s items db).sessions = db.sessions ∧
        (closeItems env threadId turnId s items db).sessionEvents = db.sessionEvents := by
    intro s items
    induction items with
    | nil => exact fun db => ⟨rfl, rfl⟩
    | cons i items ih => exact fun db => ih _
  refine ⟨?_, ?_, ?_, ?_, endTurn_keyed.mpr hc.items, ?_⟩
  · have h := (hsame (closedStatus status) (db.items.filter fun i => i.turnId = turnId ∧
      i.status = .running) (endedTurn env turnId status db)).1
    exact (congrArg _ h).mpr hc.sessions
  · have h := (hsame (closedStatus status) (db.items.filter fun i => i.turnId = turnId ∧
      i.status = .running) (endedTurn env turnId status db)).2
    exact (congrArg _ h).mpr hc.sessionEvents
  · rw [endTurn_turns]
    refine (keyed_updateWhere ?_).mpr hc.turns
    exact fun _ _ => rfl
  · have hsub := filter_updateWhere_sublist (p := fun t : Turn => t.id = turnId)
      (f := fun t => { t with status := status, endedAt := some env.now })
      (q := fun t => t.status.Active) (t := db.turns) fun _ _ => hs
    rw [endTurn_turns]
    exact hc.single.sublist (hsub.map _)
  · rw [endTurn_approvals]
    refine (keyed_updateWhere ?_).mpr hc.approvals
    exact fun _ _ => rfl

theorem constraints_opened (hc : db.Constraints) (hnew : turnId ∉ db.turns.map Turn.id)
    (hnone : ∀ t ∈ db.turns, t.status.Active → t.threadId ≠ threadId) {mode : ApprovalMode} :
    (opened env turnId threadId mode db).Constraints := by
  refine ⟨hc.sessions, hc.sessionEvents, ?_, ?_, hc.items, hc.approvals⟩
  · refine keyed_append.mpr ⟨hc.turns, List.nodup_singleton _, fun t ht t' ht' hid => ?_⟩
    rw [List.mem_singleton.mp ht'] at hid
    exact hnew (List.mem_map.mpr ⟨t, ht, hid⟩)
  · have hsplit : ((opened env turnId threadId mode db).turns.filter fun t => t.status.Active) =
        (db.turns.filter fun t => t.status.Active) ++
          [{ id := turnId, threadId := threadId, status := .running, createdAt := env.now,
             ownerPid := some env.host.pid }] := List.filter_append ..
    rw [hsplit]
    refine keyed_append.mpr ⟨hc.single, List.nodup_singleton _, fun t ht t' ht' => ?_⟩
    obtain ⟨hmem, hactive⟩ := List.mem_filter.mp ht
    rw [List.mem_singleton.mp ht']
    exact hnone t hmem (of_decide_eq_true hactive)

/-! ### What is open belongs to an active turn -/

/-- The turn of a running item, and that of a pending approval, is active. -/
structure Sound (db : SessionDb) : Prop where
  items : ∀ i ∈ db.items, i.status = .running → Active i.turnId db
  approvals : ∀ a ∈ db.approvals, a.decision = .pending → Active a.turnId db

theorem Sound.of_rows (h : Sound db) (hactive : ∀ x, Active x db → Active x db')
    (hitems : ∀ i ∈ db'.items, i.status = .running →
      Active i.turnId db' ∨ ∃ j ∈ db.items, j.turnId = i.turnId ∧ j.status = .running)
    (happrovals : ∀ a ∈ db'.approvals, a.decision = .pending →
      Active a.turnId db' ∨ ∃ b ∈ db.approvals, b.turnId = a.turnId ∧ b.decision = .pending) :
    Sound db' := by
  constructor
  · intro i hi hr
    rcases hitems i hi hr with ha | ⟨j, hj, hturn, hrun⟩
    · exact ha
    · rw [← hturn]
      exact hactive _ (h.items j hj hrun)
  · intro a ha hp
    rcases happrovals a ha hp with ha | ⟨b, hb, hturn, hpend⟩
    · exact ha
    · rw [← hturn]
      exact hactive _ (h.approvals b hb hpend)

theorem sound_event (h : Sound db) (kind : EventKind) (payload : Json) (now : Time) :
    Sound (db.event threadId turnId kind payload now) := ⟨h.items, h.approvals⟩

theorem sound_of_same (hs : SameJournal db db') (h : Sound db) : Sound db' := by
  refine h.of_rows (fun x hx => (active_congr hs.turns).mpr hx) (fun i hi hr => ?_) fun a ha hp => ?_
  · rw [hs.items] at hi
    exact Or.inr ⟨i, hi, rfl, hr⟩
  · rw [hs.approvals] at ha
    exact Or.inr ⟨a, ha, rfl, hp⟩

theorem sound_updItems (h : Sound db) {p : Item → Prop} [DecidablePred p] {f : Item → Item}
    (hturn : ∀ i, (f i).turnId = i.turnId)
    (hrunning : ∀ i ∈ db.items, p i → (f i).status = .running → i.status = .running) :
    Sound (db.updItems p f) := by
  refine h.of_rows (fun _ hx => hx) (fun i hi hr => ?_) fun a ha hp => Or.inr ⟨a, ha, rfl, hp⟩
  obtain ⟨j, hj, rfl⟩ := mem_updateWhere.mp hi
  right
  refine ⟨j, hj, ?_, ?_⟩
  · split_ifs
    · exact (hturn j).symm
    · rfl
  · split_ifs at hr with hp
    · exact hrunning j hj hp hr
    · exact hr

theorem sound_insertItem (h : Sound db) (ha : Active turnId db) {itemId : Uuid} {kind : String}
    {payload : Json} : Sound (insertItem env itemId threadId turnId kind payload db) := by
  refine sound_event ?_ _ _ _
  refine h.of_rows (fun _ hx => hx) (fun i hi hr => ?_) fun a ha hp => Or.inr ⟨a, ha, rfl, hp⟩
  rcases List.mem_append.mp hi with hi | hi
  · exact Or.inr ⟨i, hi, rfl, hr⟩
  · rw [List.mem_singleton.mp hi]
    exact Or.inl ha

theorem sound_completeMessage (h : Sound db) {messageId : Uuid} {payload : Json} :
    Sound (completeMessage env threadId turnId messageId payload db) := by
  have hitem : Sound (db.updItems (fun i => i.id = messageId)
      fun i => { i with status := .completed, payload := payload }) :=
    sound_updItems h (fun _ => rfl) fun _ _ _ hr => absurd hr ItemStatus.noConfusion
  exact sound_event hitem _ _ _

theorem sound_answered (h : Sound db) (ha : Active turnId db) {fresh : Uuid}
    {messageId : Option Uuid} {answer : String} :
    Sound (answered env fresh threadId turnId messageId answer db).2 := by
  unfold answered
  dsimp only
  split_ifs
  · exact h
  · cases messageId with
    | some id => exact sound_completeMessage h
    | none => exact sound_completeMessage (sound_insertItem h ha)

theorem clientDecision_ne_pending {text : String} {decision : Decision}
    (h : clientDecision text = .ok decision) : decision ≠ .pending := by
  unfold clientDecision at h
  split at h
  · cases h
    exact Decision.noConfusion
  · cases h
    exact Decision.noConfusion
  · cases h

theorem sound_resolved (h : Sound db) {approvalId : Uuid} {decision : Decision}
    (hd : decision ≠ .pending) : Sound (resolved env threadId turnId approvalId decision db) := by
  refine sound_event ?_ _ _ _
  refine h.of_rows (fun _ hx => hx) (fun i hi hr => Or.inr ⟨i, hi, rfl, hr⟩) fun a ha hp => ?_
  obtain ⟨b, hb, rfl⟩ := mem_updateWhere.mp ha
  right
  split_ifs at hp ⊢
  · exact absurd hp hd
  · exact ⟨b, hb, rfl, hp⟩

theorem sound_insertApproval (h : Sound db) (ha : Active turnId db) {approvalId itemId : Uuid}
    {digest : Digest} {action : Json} :
    Sound (insertApproval env approvalId threadId turnId itemId digest action db) := by
  refine h.of_rows (fun x hx => (active_insertApproval ha).mpr hx)
    (fun i hi hr => Or.inr ⟨i, hi, rfl, hr⟩) fun a hmem hp => ?_
  rcases List.mem_append.mp hmem with hmem | hmem
  · exact Or.inr ⟨a, hmem, rfl, hp⟩
  · rw [List.mem_singleton.mp hmem]
    exact Or.inl ((active_insertApproval ha).mpr ha)

theorem sound_endTurn (hc : Keyed Item.id db.items) (h : Sound db) (hs : ¬ status.Active) :
    Sound (endTurn env threadId turnId status db) := by
  constructor
  · intro i hi hr
    rw [endTurn_items hc] at hi
    obtain ⟨j, hj, rfl⟩ := mem_updateWhere.mp hi
    split_ifs at hr ⊢ with hp
    · exact absurd hr (closedStatus_ne_running status)
    · exact (active_endTurn hs).mpr ⟨fun hturn => hp ⟨hturn, hr⟩, h.items j hj hr⟩
  · intro a ha hp
    rw [endTurn_approvals] at ha
    obtain ⟨b, hb, rfl⟩ := mem_updateWhere.mp ha
    split_ifs at hp ⊢ with hpend
    exact (active_endTurn hs).mpr ⟨fun hturn => hpend ⟨hturn, hp⟩, h.approvals b hb hp⟩

theorem sound_opened (h : Sound db) (hnew : db.turn turnId = none) {mode : ApprovalMode} :
    Sound (opened env turnId threadId mode db) :=
  h.of_rows (fun _ hx => (active_opened hnew).mpr (Or.inr hx))
    (fun i hi hr => Or.inr ⟨i, hi, rfl, hr⟩) fun a ha hp => Or.inr ⟨a, ha, rfl, hp⟩

/-- **Every change keeps what is open with an active turn.** -/
theorem sound_of_change (h : Change uuids w op db') (hc : w.db.Constraints) (hc' : db'.Constraints)
    (hsound : Sound w.db) : Sound db' := by
  cases h with
  | quiet h => exact sound_of_same h.journal hsound
  | opens _ _ _ h =>
    subst h
    exact sound_opened hsound (new_of_opened hc')
  | recovers _ _ _ _ _ h =>
    subst h
    exact sound_opened (sound_event (sound_endTurn hc.items hsound (by decide)) _ _ _) (new_of_opened hc')
  | starts _ ha h =>
    subst h
    exact sound_insertItem hsound ha
  | @closes env threadId turnId itemId payload status _ _ h =>
    subst h
    have hitem : Sound (w.db.updItems (Running turnId itemId)
        fun i => { i with status := status, payload := payload }) :=
      sound_updItems hsound (fun _ => rfl) fun _ _ hp _ => hp.2.2
    exact sound_event hitem _ _ _
  | @streams env threadId i text _ _ h =>
    subst h
    have hitem : Sound (w.db.updItems (fun j => j.id = i.id)
        fun j => { j with payload := appendText text i.payload }) :=
      sound_updItems hsound (fun _ => rfl) fun _ _ _ hr => hr
    exact sound_event hitem _ _ _
  | progresses _ _ _ _ h =>
    rw [← (Prod.mk.inj (Except.ok.inj h)).2]
    exact sound_event hsound _ _ _
  | asks _ _ _ ha h =>
    subst h
    exact sound_insertApproval hsound ha
  | responds _ hd _ _ _ _ _ h =>
    subst h
    exact sound_resolved hsound (clientDecision_ne_pending hd)
  | expires _ _ h =>
    subst h
    exact sound_resolved hsound Decision.noConfusion
  | resumes _ _ _ h =>
    have hactive : ∀ x, Active x w.db → Active x db' := fun x => (active_resumeTurn h).mpr
    obtain rfl := (Prod.mk.inj (Except.ok.inj h)).2
    exact hsound.of_rows hactive (fun i hi hr => Or.inr ⟨i, hi, rfl, hr⟩)
      fun a ha hp => Or.inr ⟨a, ha, rfl, hp⟩
  | finishes _ _ ha hs h =>
    subst h
    exact sound_endTurn (endTurn_keyed.mp hc'.items) (sound_answered hsound ha) hs
  | interrupts _ _ h =>
    rcases endActive_cases hc h with ⟨-, rfl⟩ | ⟨t, -, rfl⟩
    · exact hsound
    · exact sound_endTurn hc.items hsound (by decide)

structure Settled (w : World) : Prop where
  linked : Linked w
  sound : Sound w.db

theorem settled_empty : Settled {} := by
  refine ⟨linked_empty, fun i hi => ?_, fun a ha => ?_⟩
  · cases hi
  · cases ha

theorem settled_next (h : Settled w) (op : Op) : Settled (next uuids w op) := by
  have hdoes : Does uuids w op (next uuids w op).db := does_next h.linked op
  exact ⟨linked_next h.linked op,
    sound_of_change hdoes.change h.linked.constraints hdoes.constraints h.sound⟩

end Smara.Session.Endings
