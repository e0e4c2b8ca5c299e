import Smara.Session.Endings

/-! # Numbers of events and draws of ids

Every step appends events with numbers above those that were given (`appends_next`), and it draws an
id that no turn and no item has (`drawn_next`, `itemsDrawn_next`). -/

namespace Smara.Session.Numbers

open Lib.Machine Lib.Table Lib.Transaction
open TaskStore.Schema (Uuid Digest Time)
open Goals.Schema (Json Uuids)
open Session.Schema Session.Envelope Session.Protocol Session.Steps
open Session.Effects Session.Links Session.Endings

variable {uuids : Uuids} {w w' : World} {op : Op} {db db' : SessionDb} {env : Env}
  {threadId : String} {turnId : Uuid}

/-! ### Events -/

/-- The events with numbers above `n`, up to `m`, in their order. -/
structure Above (n m : ℕ) (es : List Event) : Prop where
  ordered : es.Pairwise fun e e' => e.sequence < e'.sequence
  above : ∀ e ∈ es, n < e.sequence
  upTo : ∀ e ∈ es, e.sequence ≤ m

/-- Events are appended, with new numbers. -/
structure Appends (db db' : SessionDb) : Prop where
  seq : db.eventSeq ≤ db'.eventSeq
  events : ∃ es, db'.events = db.events ++ es ∧ Above db.eventSeq db'.eventSeq es

theorem appends_same (he : db'.events = db.events) (hs : db'.eventSeq = db.eventSeq) :
    Appends db db' := by
  refine ⟨Nat.le_of_eq hs.symm, [], ?_, List.Pairwise.nil, fun e h => ?_, fun e h => ?_⟩
  · rw [he, List.append_nil]
  · cases h
  · cases h

theorem Above.append {n m k : ℕ} {es es' : List Event} (h : Above n m es) (h' : Above m k es')
    (hnm : n ≤ m) (hmk : m ≤ k) : Above n k (es ++ es') := by
  refine ⟨List.pairwise_append.mpr ⟨h.ordered, h'.ordered, fun e he e' he' => ?_⟩,
    fun e he => ?_, fun e he => ?_⟩
  · have h1 := h.upTo e he
    have h2 := h'.above e' he'
    omega
  · rcases List.mem_append.mp he with he | he
    · exact h.above e he
    · have h1 := h'.above e he
      omega
  · rcases List.mem_append.mp he with he | he
    · have h1 := h.upTo e he
      omega
    · exact h'.upTo e he

theorem Appends.trans {db'' : SessionDb} (h : Appends db db') (h' : Appends db' db'') :
    Appends db db'' := by
  obtain ⟨es, he, hes⟩ := h.events
  obtain ⟨es', he', hes'⟩ := h'.events
  refine ⟨h.seq.trans h'.seq, es ++ es', ?_, hes.append hes' h.seq h'.seq⟩
  rw [he', he, List.append_assoc]

theorem appends_one (he : ∃ e : Event, db'.events = db.events ++ [e] ∧ e.sequence = db.eventSeq + 1)
    (hs : db'.eventSeq = db.eventSeq + 1) : Appends db db' := by
  obtain ⟨e, he, hn⟩ := he
  refine ⟨by omega, [e], he, List.pairwise_singleton _ _, fun e' hmem => ?_, fun e' hmem => ?_⟩
  · rw [List.mem_singleton.mp hmem]
    omega
  · rw [List.mem_singleton.mp hmem]
    omega

theorem appends_closeItems (s : ItemStatus) (items : List Item) (db : SessionDb) :
    Appends db (closeItems env threadId turnId s items db) := by
  induction items generalizing db with
  | nil => exact appends_same rfl rfl
  | cons i items ih =>
    have hone : Appends db ((db.updItems (fun j => j.id = i.id)
        fun j => { j with status := s }).event threadId turnId .itemCompleted
        (.obj [("item_id", .str (itemName i.id)), ("status", .str s.text)]) env.now) :=
      appends_one ⟨_, rfl, rfl⟩ rfl
    exact hone.trans (ih _)

theorem appends_endTurn (env : Env) (threadId : String) (turnId : Uuid) (status : TurnStatus)
    (db : SessionDb) : Appends db (endTurn env threadId turnId status db) := by
  have hended : Appends db (endedTurn env turnId status db) := appends_same rfl rfl
  exact (hended.trans (appends_closeItems _ _ _)).trans (appends_one ⟨_, rfl, rfl⟩ rfl)

theorem appends_answered {fresh : Uuid} {messageId : Option Uuid} {answer : String} :
    Appends db (answered env fresh threadId turnId messageId answer db).2 := by
  have hcomplete : ∀ (id : Uuid) (payload : Json) (db : SessionDb),
      Appends db (completeMessage env threadId turnId id payload db) :=
    fun id payload db => appends_one ⟨_, rfl, rfl⟩ rfl
  have hinsert : ∀ payload : Json, Appends db
      (insertItem env fresh threadId turnId "agent_message" payload db) :=
    fun payload => appends_one ⟨_, rfl, rfl⟩ rfl
  unfold answered
  dsimp only
  split_ifs
  · exact appends_same rfl rfl
  · cases messageId with
    | some id => exact hcomplete id _ db
    | none => exact (hinsert _).trans (hcomplete fresh _ _)

/-- **Every change appends events with new numbers.** -/
theorem appends_of_change (h : Change uuids w op db') (hc : w.db.Constraints) : Appends w.db db' := by
  cases h with
  | quiet h => exact appends_same h.journal.events h.journal.seq
  | opens _ _ _ h =>
    subst h
    exact appends_one ⟨_, rfl, rfl⟩ rfl
  | recovers _ _ _ _ _ h =>
    subst h
    exact ((appends_endTurn _ _ _ _ _).trans (appends_one ⟨_, rfl, rfl⟩ rfl)).trans
      (appends_one ⟨_, rfl, rfl⟩ rfl)
  | starts _ _ h =>
    subst h
    exact appends_one ⟨_, rfl, rfl⟩ rfl
  | closes _ _ h =>
    subst h
    exact appends_one ⟨_, rfl, rfl⟩ rfl
  | streams _ _ h =>
    subst h
    exact appends_one ⟨_, rfl, rfl⟩ rfl
  | progresses _ _ _ _ h =>
    rw [← (Prod.mk.inj (Except.ok.inj h)).2]
    exact appends_one ⟨_, rfl, rfl⟩ rfl
  | asks _ _ _ _ h =>
    subst h
    exact appends_one ⟨_, rfl, rfl⟩ rfl
  | responds _ _ _ _ _ _ _ h =>
    subst h
    exact appends_one ⟨_, rfl, rfl⟩ rfl
  | expires _ _ h =>
    subst h
    exact appends_one ⟨_, rfl, rfl⟩ rfl
  | resumes _ _ _ h =>
    rw [← (Prod.mk.inj (Except.ok.inj h)).2]
    exact appends_same rfl rfl
  | finishes _ _ _ _ h =>
    subst h
    exact appends_answered.trans (appends_endTurn _ _ _ _ _)
  | interrupts _ _ h =>
    rcases endActive_cases hc h with ⟨-, rfl⟩ | ⟨t, -, rfl⟩
    · exact appends_same rfl rfl
    · exact appends_endTurn _ _ _ _ _

/-- **Every step appends events with new numbers.** -/
theorem appends_next (hl : Linked w) (op : Op) : Appends w.db (next uuids w op).db := by
  have hdoes : Does uuids w op (next uuids w op).db := does_next hl op
  exact appends_of_change hdoes.change hl.constraints

def Numbered (db : SessionDb) : Prop := Above 0 db.eventSeq db.events

theorem Appends.numbered (h : Appends db db') (hn : Numbered db) : Numbered db' := by
  obtain ⟨es, he, hes⟩ := h.events
  unfold Numbered
  rw [he]
  exact hn.append hes (Nat.zero_le _) h.seq

/-! ### Draws -/

def Drawn (uuids : Uuids) (w : World) : Prop :=
  ∀ id ∈ w.db.turns.map Turn.id, ∃ n < w.drawn, id = uuids.draw n

def Draws (w w' : World) : Prop := w'.drawn = w.drawn + 1 ∨ w'.db = w.db ∧ w'.drawn = w.drawn

theorem draws_refl (w : World) : Draws w w := Or.inr ⟨rfl, rfl⟩

theorem draws_next (uuids : Uuids) (w : World) (op : Op) : Draws w (next uuids w op) := by
  have handThen : ∀ {β : Type} (body : SessionDb → Except Err (β × SessionDb))
      (k : β → World → World), (∀ b w, (k b w).drawn = w.drawn) →
      (w.andThen body k).drawn = w.drawn + 1 := by
    intro β body k hk
    unfold World.andThen
    split
    · exact hk _ _
    · rfl
  have hwrite : ∀ {β : Type} (body : SessionDb → Except Err (β × SessionDb)),
      Draws w (w.write body) := fun body => Or.inl rfl
  have hturn : ∀ (k : ℕ) (call : ProtocolTurn → World), (∀ p, Draws w (call p)) →
      Draws w (w.onTurn k call) := by
    intro k call hcall
    unfold World.onTurn
    split
    · exact draws_refl w
    · exact hcall _
  have htext : ∀ (env : Env) (fresh : Uuid) (k : ℕ) (p : ProtocolTurn) (text : String),
      Draws w (w.textDelta env fresh k p text) := by
    intro env fresh k p text
    unfold World.textDelta
    split
    · exact hwrite _
    · exact Or.inl (handThen _ _ fun _ _ => rfl)
  cases op with
  | createOrGet => exact hwrite _
  | startTurn => exact Or.inl (handThen _ _ fun _ _ => rfl)
  | appendEvent => exact hwrite _
  | checkpoint => exact hwrite _
  | requestCancel => exact hwrite _
  | begin => exact Or.inl (handThen _ _ fun _ _ => rfl)
  | respond => exact hwrite _
  | interrupt => exact Or.inl (handThen _ _ fun _ _ => rfl)
  | bindExecution k sessionId workspace => exact hturn _ _ fun _ => draws_refl w
  | item => exact hturn _ _ fun _ => hwrite _
  | completeItem => exact hturn _ _ fun _ => hwrite _
  | execute => exact hturn _ _ fun _ => Or.inl (handThen _ _ fun _ _ => rfl)
  | textDelta => exact hturn _ _ fun _ => htext _ _ _ _ _
  | progress env k kind data =>
    refine hturn _ _ fun p => ?_
    unfold World.progress
    split
    · exact htext _ _ _ _ _
    · split_ifs
      · exact hwrite _
      · exact draws_refl w
  | finish => exact hturn _ _ fun _ => Or.inl (handThen _ _ fun _ _ => rfl)
  | step env j m =>
    simp only [next]
    split
    · exact draws_refl w
    · exact Or.inl rfl
  | rest env j =>
    simp only [next]
    split
    · exact draws_refl w
    · exact Or.inl rfl

theorem ids_endTurn (env : Env) (threadId : String) (turnId : Uuid) (status : TurnStatus)
    (db : SessionDb) :
    (endTurn env threadId turnId status db).turns.map Turn.id = db.turns.map Turn.id := by
  rw [endTurn_turns]
  exact map_updateWhere fun _ _ => rfl

theorem ids_of_change (h : Change uuids w op db') (hc : w.db.Constraints) :
    db'.turns.map Turn.id = w.db.turns.map Turn.id ∨
      db'.turns.map Turn.id = w.db.turns.map Turn.id ++ [uuids.draw w.drawn] := by
  cases h with
  | quiet h => exact Or.inl (congrArg _ h.journal.turns)
  | opens _ _ _ h =>
    subst h
    exact Or.inr List.map_append
  | @recovers env threadId request mode mode' handler t _ _ _ _ _ h =>
    subst h
    have hids : (recovered env threadId t.id w.db).turns.map Turn.id = w.db.turns.map Turn.id :=
      ids_endTurn env threadId t.id .needsInput w.db
    rw [← hids]
    exact Or.inr List.map_append
  | starts _ _ h =>
    subst h
    exact Or.inl rfl
  | closes _ _ h =>
    subst h
    exact Or.inl rfl
  | streams _ _ h =>
    subst h
    exact Or.inl rfl
  | progresses _ _ _ _ h =>
    rw [← (Prod.mk.inj (Except.ok.inj h)).2]
    exact Or.inl rfl
  | asks _ _ _ _ h =>
    subst h
    exact Or.inl (map_updateWhere fun _ _ => rfl)
  | responds _ _ _ _ _ _ _ h =>
    subst h
    exact Or.inl rfl
  | expires _ _ h =>
    subst h
    exact Or.inl rfl
  | resumes _ _ _ h =>
    rw [← (Prod.mk.inj (Except.ok.inj h)).2]
    exact Or.inl (map_updateWhere fun _ _ => rfl)
  | finishes _ _ _ _ h =>
    subst h
    rw [ids_endTurn, answered_turns]
    exact Or.inl rfl
  | interrupts _ _ h =>
    rcases endActive_cases hc h with ⟨-, rfl⟩ | ⟨t, -, rfl⟩
    · exact Or.inl rfl
    · exact Or.inl (ids_endTurn _ _ _ _ _)

theorem drawn_next (hl : Linked w) (h : Drawn uuids w) (op : Op) : Drawn uuids (next uuids w op) := by
  have hdoes : Does uuids w op (next uuids w op).db := does_next hl op
  rcases draws_next uuids w op with hn | ⟨hdb, hn⟩
  · intro id hid
    rcases ids_of_change hdoes.change hl.constraints with hids | hids
    · rw [hids] at hid
      obtain ⟨n, hlt, he⟩ := h id hid
      exact ⟨n, by omega, he⟩
    · rw [hids] at hid
      rcases List.mem_append.mp hid with hid | hid
      · obtain ⟨n, hlt, he⟩ := h id hid
        exact ⟨n, by omega, he⟩
      · exact ⟨w.drawn, by omega, List.mem_singleton.mp hid⟩
  · unfold Drawn
    rw [hdb, hn]
    exact h

theorem Drawn.new (h : Drawn uuids w) : uuids.draw w.drawn ∉ w.db.turns.map Turn.id := by
  intro hmem
  obtain ⟨n, hlt, he⟩ := h _ hmem
  have hn : w.drawn = n := uuids.distinct he
  omega

/-! ### Draws of items -/

def ItemsDrawn (uuids : Uuids) (w : World) : Prop :=
  ∀ id ∈ w.db.items.map Item.id, ∃ n < w.drawn, id = uuids.draw n

def Adds (fresh : Uuid) (db db' : SessionDb) : Prop :=
  ∀ id ∈ db'.items.map Item.id, id ∈ db.items.map Item.id ∨ id = fresh

theorem adds_of_ids {fresh : Uuid} (h : db'.items.map Item.id = db.items.map Item.id) :
    Adds fresh db db' := by
  intro id hid
  rw [h] at hid
  exact Or.inl hid

theorem itemIds_closeItems (s : ItemStatus) (items : List Item) (db : SessionDb) :
    (closeItems env threadId turnId s items db).items.map Item.id = db.items.map Item.id := by
  rw [closeItems_items]
  exact map_updateWhere fun _ _ => rfl

theorem itemIds_endTurn (env : Env) (threadId : String) (turnId : Uuid) (status : TurnStatus)
    (db : SessionDb) :
    (endTurn env threadId turnId status db).items.map Item.id = db.items.map Item.id :=
  itemIds_closeItems _ _ (endedTurn env turnId status db)

theorem itemIds_completeMessage {messageId : Uuid} {payload : Json} :
    (completeMessage env threadId turnId messageId payload db).items.map Item.id =
      db.items.map Item.id := map_updateWhere fun _ _ => rfl

theorem adds_insertItem {fresh : Uuid} {kind : String} {payload : Json} :
    Adds fresh db (insertItem env fresh threadId turnId kind payload db) := by
  intro id hid
  have hids : (insertItem env fresh threadId turnId kind payload db).items.map Item.id =
      db.items.map Item.id ++ [fresh] := List.map_append
  rw [hids] at hid
  rcases List.mem_append.mp hid with hid | hid
  · exact Or.inl hid
  · exact Or.inr (List.mem_singleton.mp hid)

theorem adds_answered {fresh : Uuid} {messageId : Option Uuid} {answer : String} :
    Adds fresh db (answered env fresh threadId turnId messageId answer db).2 := by
  unfold answered
  dsimp only
  split_ifs
  · exact adds_of_ids rfl
  · cases messageId with
    | some id => exact adds_of_ids itemIds_completeMessage
    | none =>
      intro id hid
      dsimp only at hid
      rw [itemIds_completeMessage] at hid
      exact adds_insertItem id hid

theorem items_of_change (h : Change uuids w op db') (hc : w.db.Constraints) :
    Adds (uuids.draw w.drawn) w.db db' := by
  cases h with
  | quiet h => exact adds_of_ids (congrArg _ h.journal.items)
  | recovers _ _ _ _ _ h =>
    subst h
    exact adds_of_ids (itemIds_endTurn _ _ _ _ _)
  | starts _ _ h =>
    subst h
    exact adds_insertItem
  | closes _ _ h | streams _ _ h =>
    subst h
    exact adds_of_ids (map_updateWhere fun _ _ => rfl)
  | finishes _ _ _ _ h =>
    subst h
    intro id hid
    rw [itemIds_endTurn] at hid
    exact adds_answered id hid
  | interrupts _ _ h =>
    rcases endActive_cases hc h with ⟨-, rfl⟩ | ⟨t, -, rfl⟩
    · exact adds_of_ids rfl
    · exact adds_of_ids (itemIds_endTurn _ _ _ _ _)
  | progresses _ _ _ _ h | resumes _ _ _ h =>
    rw [← (Prod.mk.inj (Except.ok.inj h)).2]
    exact adds_of_ids rfl
  | opens _ _ _ h | asks _ _ _ _ h | responds _ _ _ _ _ _ _ h | expires _ _ h =>
    subst h
    exact adds_of_ids rfl

theorem itemsDrawn_next (hl : Linked w) (h : ItemsDrawn uuids w) (op : Op) :
    ItemsDrawn uuids (next uuids w op) := by
  have hdoes : Does uuids w op (next uuids w op).db := does_next hl op
  rcases draws_next uuids w op with hn | ⟨hdb, hn⟩
  · intro id hid
    rcases items_of_change hdoes.change hl.constraints id hid with hid | rfl
    · obtain ⟨n, hlt, he⟩ := h id hid
      exact ⟨n, by omega, he⟩
    · exact ⟨w.drawn, by omega, rfl⟩
  · unfold ItemsDrawn
    rw [hdb, hn]
    exact h

theorem ItemsDrawn.new (h : ItemsDrawn uuids w) : uuids.draw w.drawn ∉ w.db.items.map Item.id := by
  intro hmem
  obtain ⟨n, hlt, he⟩ := h _ hmem
  have hn : w.drawn = n := uuids.distinct he
  omega

end Smara.Session.Numbers
