import Smara.Session.Approvals
import Smara.Session.Numbers

/-! # Items and their events

The trail of an item is its events `item.started` and `item.completed` in the journal. `Kept` is the
invariant: the trail of a running item is its start, the trail of any other is its start and one
completion with its status. A `finish` that completes a message which is not running breaks it, and so
does a call whose own members replace those that name the item.

* `Booked`: the bookkeeping of turns and items.
* `booked_after`: in a run without such calls the ledger is booked in every state. -/

namespace Smara.Session.Items

open Lib.Machine Lib.Table Lib.Transaction
open TaskStore.Schema (Uuid Digest Time)
open TaskStore.Report (hex hex_injective)
open Goals.Schema (Json Uuids)
open Session.Schema Session.Envelope Session.Protocol Session.Steps
open Session.Effects Session.Links Session.Endings Session.Numbers
open Session.Approvals (Executes executes_next)

variable {uuids : Uuids} {w w' : World} {op : Op} {db db' : SessionDb} {env : Env}
  {threadId : String} {turnId itemId : Uuid} {status : ItemStatus} {payload : Json}

/-! ### Trails -/

def textAt (key : String) (e : Event) : Option String :=
  match get key e.payload with
  | some (.str s) => some s
  | _ => none

def OfItem (e : Event) : Prop := e.kind = .itemStarted ∨ e.kind = .itemCompleted

instance (e : Event) : Decidable (OfItem e) := inferInstanceAs (Decidable (_ ∨ _))

def Concerns (itemId : Uuid) (e : Event) : Prop :=
  OfItem e ∧ textAt "item_id" e = some (itemName itemId)

instance (itemId : Uuid) (e : Event) : Decidable (Concerns itemId e) :=
  inferInstanceAs (Decidable (_ ∧ _))

def trail (itemId : Uuid) (es : List Event) : List Event := es.filter fun e => Concerns itemId e

theorem itemName_injective : Function.Injective itemName := by
  intro i j h
  exact hex_injective (String.append_right_inj "item_" |>.mp h)

inductive Trail (status : ItemStatus) : List Event → Prop
  | running {s : Event} (hs : s.kind = .itemStarted) (hr : status = .running) : Trail status [s]
  | completed {s c : Event} (hs : s.kind = .itemStarted) (hc : c.kind = .itemCompleted)
      (hstatus : textAt "status" c = some status.text) (hr : status ≠ .running) :
      Trail status [s, c]

def marks (db : SessionDb) : List (Uuid × ItemStatus) := db.items.map fun i => (i.id, i.status)

/-- **Every item has its trail, and every event of an item names one.** -/
structure Kept (ms : List (Uuid × ItemStatus)) (es : List Event) : Prop where
  trails : ∀ m ∈ ms, Trail m.2 (trail m.1 es)
  named : ∀ e ∈ es, OfItem e → ∃ m ∈ ms, textAt "item_id" e = some (itemName m.1)

variable {ms : List (Uuid × ItemStatus)} {es es' : List Event} {e : Event}

theorem trail_append : trail itemId (es ++ es') = trail itemId es ++ trail itemId es' :=
  List.filter_append ..

theorem trail_other (h : ∀ e ∈ es', ¬ Concerns itemId e) : trail itemId (es ++ es') = trail itemId es := by
  have hnone : trail itemId es' = [] :=
    List.filter_eq_nil_iff.mpr fun e he hc => h e he (of_decide_eq_true hc)
  rw [trail_append, hnone, List.append_nil]

theorem trail_one (h : Concerns itemId e) : trail itemId (es ++ [e]) = trail itemId es ++ [e] := by
  rw [trail_append]
  congr 1
  exact List.filter_cons_of_pos (decide_eq_true h)

theorem Kept.others (h : Kept ms es) (hes : ∀ e ∈ es', ¬ OfItem e) : Kept ms (es ++ es') := by
  refine ⟨fun m hm => ?_, fun e he ho => ?_⟩
  · rw [trail_other fun e he hc => hes e he hc.1]
    exact h.trails m hm
  · rcases List.mem_append.mp he with he | he
    · exact h.named e he ho
    · exact absurd ho (hes e he)

theorem Kept.start (h : Kept ms es) (hnew : ∀ m ∈ ms, m.1 ≠ itemId) (hk : e.kind = .itemStarted)
    (hname : textAt "item_id" e = some (itemName itemId)) :
    Kept (ms ++ [(itemId, .running)]) (es ++ [e]) := by
  have hempty : trail itemId es = [] := by
    refine List.filter_eq_nil_iff.mpr fun e' he' hc => ?_
    obtain ⟨ho, hn⟩ := of_decide_eq_true hc
    obtain ⟨m, hm, hn'⟩ := h.named e' he' ho
    exact hnew m hm (itemName_injective (Option.some.inj (hn'.symm.trans hn)))
  refine ⟨fun m hm => ?_, fun e' he' ho => ?_⟩
  · rcases List.mem_append.mp hm with hm | hm
    · rw [trail_other]
      · exact h.trails m hm
      · intro e' he' hc
        rw [List.mem_singleton.mp he'] at hc
        exact hnew m hm (itemName_injective (Option.some.inj (hc.2.symm.trans hname)))
    · rw [List.mem_singleton.mp hm, trail_one ⟨Or.inl hk, hname⟩, hempty]
      exact .running hk rfl
  · rcases List.mem_append.mp he' with he' | he'
    · obtain ⟨m, hm, hn⟩ := h.named e' he' ho
      exact ⟨m, List.mem_append_left _ hm, hn⟩
    · rw [List.mem_singleton.mp he']
      exact ⟨_, List.mem_append_right _ (List.mem_singleton.mpr rfl), hname⟩

def marked (itemId : Uuid) (status : ItemStatus) (ms : List (Uuid × ItemStatus)) :
    List (Uuid × ItemStatus) :=
  updateWhere (fun m => m.1 = itemId) (fun m => (m.1, status)) ms

theorem Kept.complete (h : Kept ms es) (hkeys : Keyed Prod.fst ms) (hm : (itemId, .running) ∈ ms)
    (hstatus : status ≠ .running) (hk : e.kind = .itemCompleted)
    (hname : textAt "item_id" e = some (itemName itemId))
    (hs : textAt "status" e = some status.text) : Kept (marked itemId status ms) (es ++ [e]) := by
  refine ⟨fun m' hm' => ?_, fun e' he' ho => ?_⟩
  · obtain ⟨m, hmem, rfl⟩ := mem_updateWhere.mp hm'
    by_cases hid : m.1 = itemId
    · rw [if_pos hid]
      obtain rfl := hkeys.eq_of_key hmem hm hid
      have ht := h.trails _ hm
      rw [trail_one ⟨Or.inr hk, hname⟩]
      generalize trail itemId es = l at ht ⊢
      cases ht with
      | running hstart _ => exact .completed hstart hk hs hstatus
      | completed _ _ _ hr => exact absurd rfl hr
    · rw [if_neg hid, trail_other]
      · exact h.trails m hmem
      · intro e' he' hc
        rw [List.mem_singleton.mp he'] at hc
        exact hid (itemName_injective (Option.some.inj (hc.2.symm.trans hname)))
  · have hids : ∀ m ∈ ms, ∃ m' ∈ marked itemId status ms, m'.1 = m.1 := by
      intro m hmem
      refine ⟨_, mem_updateWhere.mpr ⟨m, hmem, rfl⟩, ?_⟩
      split_ifs <;> rfl
    rcases List.mem_append.mp he' with he' | he'
    · obtain ⟨m, hmem, hn⟩ := h.named e' he' ho
      obtain ⟨m', hm', hid⟩ := hids m hmem
      exact ⟨m', hm', by rw [hid]; exact hn⟩
    · obtain ⟨m', hm', hid⟩ := hids _ hm
      refine ⟨m', hm', ?_⟩
      rw [List.mem_singleton.mp he', hid]
      exact hname

/-! ### Payloads -/

/-- `payload.items()` -/
def membersOf : Json → List (String × Json)
  | .obj members => members
  | _ => []

def Agrees (key value : String) (payload : Json) : Prop :=
  ∀ m ∈ membersOf payload, m.1 = key → m.2 = .str value

def Plain (payload : Json) : Prop := ∀ m ∈ membersOf payload, m.1 ≠ "item_id" ∧ m.1 ≠ "status"

theorem get_merged {key value : String} {members : List (String × Json)}
    (h : Agrees key value payload) (hm : get key (.obj members) = some (.str value)) :
    get key (merged members payload) = some (.str value) := by
  cases payload with
  | obj more =>
    change get key (.obj (more.foldl _ members)) = _
    induction more generalizing members with
    | nil => exact hm
    | cons m more ih =>
      rw [List.foldl_cons]
      refine ih ?_ fun m' hm' => h m' (List.mem_cons_of_mem m hm')
      have hlookup : lookup Prod.fst key (upsert Prod.fst m (fun _ => m) members) =
          if key = m.1 then some (((lookup Prod.fst key members).map fun _ => m).getD m)
          else lookup Prod.fst key members := lookup_upsert fun _ _ => rfl
      by_cases hk : key = m.1
      · rw [if_pos hk] at hlookup
        have hsome : lookup Prod.fst key (upsert Prod.fst m (fun _ => m) members) = some m := by
          rw [hlookup]
          cases lookup Prod.fst key members <;> rfl
        have hvalue := h m List.mem_cons_self hk.symm
        change (lookup Prod.fst key _).map Prod.snd = _
        rw [hsome, Option.map_some, hvalue]
      · rw [if_neg hk] at hlookup
        exact (congrArg (Option.map Prod.snd) hlookup).trans hm
  | null => exact hm
  | bool => exact hm
  | num => exact hm
  | str => exact hm
  | arr => exact hm

theorem keys_safe (host : Host) (payload : Json) :
    (membersOf (safe host payload)).map Prod.fst = (membersOf payload).map Prod.fst := by
  cases payload with
  | obj members =>
    rw [safe]
    change (safeMembers host members).map Prod.fst = members.map Prod.fst
    induction members with
    | nil => rw [safeMembers]
    | cons m members ih =>
      obtain ⟨k, v⟩ := m
      rw [safeMembers, List.map_cons, List.map_cons, ih]
  | null => simp only [safe]
  | bool => simp only [safe]
  | num => simp only [safe]
  | str => simp only [safe, membersOf]
  | arr => simp only [safe, membersOf]

theorem Plain.safe (h : Plain payload) (host : Host) : Plain (safe host payload) := by
  intro m hm
  have hmem : m.1 ∈ (membersOf payload).map Prod.fst :=
    keys_safe host payload ▸ List.mem_map_of_mem hm
  obtain ⟨m', hm', he⟩ := List.mem_map.mp hmem
  rw [← he]
  exact h m' hm'

theorem Plain.noItem (h : Plain payload) (value : String) : Agrees "item_id" value payload :=
  fun m hm hk => absurd hk (h m hm).1

theorem Plain.noStatus (h : Plain payload) (value : String) : Agrees "status" value payload :=
  fun m hm hk => absurd hk (h m hm).2

theorem textAt_merged {key value : String} {members : List (String × Json)}
    (h : Agrees key value payload) (hm : get key (.obj members) = some (.str value))
    (hp : e.payload = merged members payload) : textAt key e = some value := by
  unfold textAt
  rw [hp, get_merged h hm]

/-! ### What the transactions keep -/

abbrev KeptItems (db : SessionDb) : Prop := Kept (marks db) db.events

theorem keyed_marks (hc : Keyed Item.id db.items) : Keyed Prod.fst (marks db) := by
  unfold Keyed marks
  rw [List.map_map]
  exact hc

theorem mem_marks {m : Uuid × ItemStatus} :
    m ∈ marks db ↔ ∃ i ∈ db.items, i.id = m.1 ∧ i.status = m.2 := by
  unfold marks
  rw [List.mem_map]
  exact exists_congr fun i => and_congr_right fun _ => Prod.ext_iff

theorem kept_same (h : KeptItems db) (hm : marks db' = marks db) {es : List Event}
    (he : db'.events = db.events ++ es) (hes : ∀ e ∈ es, ¬ OfItem e) : KeptItems db' := by
  unfold KeptItems
  rw [hm, he]
  exact h.others hes

theorem kept_silent (h : KeptItems db) (hm : marks db' = marks db) (he : db'.events = db.events) :
    KeptItems db' := by
  have happ : db'.events = db.events ++ [] := by
    rw [he, List.append_nil]
  exact kept_same h hm happ (List.forall_mem_nil _)

theorem marks_updated {p : Item → Prop} [DecidablePred p] {f : Item → Item}
    (he : db'.items = updateWhere p f db.items) (hid : ∀ i, (f i).id = i.id)
    (hs : ∀ i, (f i).status = status) (hp : ∀ i ∈ db.items, p i ↔ i.id = itemId) :
    marks db' = marked itemId status (marks db) := by
  unfold marks marked
  rw [he]
  unfold updateWhere
  simp only [List.map_map]
  refine List.map_congr_left fun i hi => ?_
  by_cases h : i.id = itemId
  · simp [h, (hp i hi).mpr h, hid, hs]
  · have hnot : ¬ p i := fun h' => h ((hp i hi).mp h')
    simp [h, hnot]

theorem kept_insertItem {kind : String} (h : KeptItems db)
    (hitem : Agrees "item_id" (itemName itemId) payload)
    (hc : Keyed Item.id (insertItem env itemId threadId turnId kind payload db).items) :
    KeptItems (insertItem env itemId threadId turnId kind payload db) := by
  have hnew : ∀ m ∈ marks db, m.1 ≠ itemId := by
    intro m hm
    obtain ⟨i, hi, hid, -⟩ := mem_marks.mp hm
    rw [← hid]
    exact (keyed_append.mp hc).2.2 i hi _ (List.mem_singleton.mpr rfl)
  have hmarks : marks (insertItem env itemId threadId turnId kind payload db) =
      marks db ++ [(itemId, .running)] := List.map_append
  unfold KeptItems
  rw [hmarks]
  exact h.start hnew rfl (textAt_merged hitem rfl rfl)

theorem kept_closeItem (h : KeptItems db) (hc : Keyed Item.id db.items)
    (hi : ∃ i ∈ db.items, Running turnId itemId i) (hs : status ≠ .running)
    (hitem : Agrees "item_id" (itemName itemId) payload)
    (hstatus : Agrees "status" status.text payload) :
    KeptItems (closeItem env threadId turnId itemId payload status db) := by
  obtain ⟨i, hi, hid, hturn, hr⟩ := hi
  have hp : ∀ j ∈ db.items, Running turnId itemId j ↔ j.id = itemId := by
    intro j hj
    refine ⟨fun hj => hj.1, fun hid' => ?_⟩
    rw [hc.eq_of_key hj hi (hid'.trans hid.symm)]
    exact ⟨hid, hturn, hr⟩
  have hmarks : marks (closeItem env threadId turnId itemId payload status db) =
      marked itemId status (marks db) := marks_updated rfl (fun _ => rfl) (fun _ => rfl) hp
  unfold KeptItems
  rw [hmarks]
  exact h.complete (keyed_marks hc) (mem_marks.mpr ⟨i, hi, hid, hr⟩) hs rfl
    (textAt_merged hitem rfl rfl) (textAt_merged hstatus rfl rfl)

theorem completeMessage_keyed :
    Keyed Item.id (completeMessage env threadId turnId itemId payload db).items ↔
      Keyed Item.id db.items := by
  refine keyed_updateWhere ?_
  exact fun _ _ => rfl

theorem kept_completeMessage (h : KeptItems db) (hc : Keyed Item.id db.items)
    (hm : (itemId, .running) ∈ marks db) {text : String} :
    KeptItems (completeMessage env threadId turnId itemId (.obj [("text", .str text)]) db) := by
  have hplain : Plain (.obj [("text", .str text)]) := by simp [Plain, membersOf]
  have hmarks : marks (completeMessage env threadId turnId itemId (.obj [("text", .str text)]) db) =
      marked itemId .completed (marks db) :=
    marks_updated rfl (fun _ => rfl) (fun _ => rfl) fun _ _ => Iff.rfl
  unfold KeptItems
  rw [hmarks]
  exact h.complete (keyed_marks hc) hm ItemStatus.noConfusion rfl
    (textAt_merged (hplain.noItem _) rfl rfl) (textAt_merged (hplain.noStatus _) rfl rfl)

theorem kept_closeItems (hs : status ≠ .running) {items : List Item} (hnodup : Keyed Item.id items)
    (hrun : ∀ i ∈ items, (i.id, .running) ∈ marks db) (hc : Keyed Item.id db.items)
    (h : KeptItems db) : KeptItems (closeItems env threadId turnId status items db) := by
  induction items generalizing db with
  | nil => exact h
  | cons i items ih =>
    let db₁ := (db.updItems (fun j => j.id = i.id) fun j => { j with status := status }).event
      threadId turnId .itemCompleted
      (.obj [("item_id", .str (itemName i.id)), ("status", .str status.text)]) env.now
    have hmarks : marks db₁ = marked i.id status (marks db) :=
      marks_updated rfl (fun _ => rfl) (fun _ => rfl) fun _ _ => Iff.rfl
    have hc₁ : Keyed Item.id db₁.items := by
      refine (keyed_updateWhere ?_).mpr hc
      exact fun _ _ => rfl
    obtain ⟨hi, hnodup⟩ := List.nodup_cons.mp hnodup
    refine ih hnodup (fun j hj => ?_) hc₁ ?_
    · have hne : j.id ≠ i.id := fun he => hi (he ▸ List.mem_map_of_mem hj)
      rw [hmarks]
      exact mem_updateWhere.mpr ⟨_, hrun j (List.mem_cons_of_mem i hj), if_neg hne⟩
    · unfold KeptItems
      rw [hmarks]
      exact h.complete (keyed_marks hc) (hrun i List.mem_cons_self) hs rfl rfl rfl

theorem kept_endTurn {status : TurnStatus} (h : KeptItems db) (hc : Keyed Item.id db.items) :
    KeptItems (endTurn env threadId turnId status db) := by
  let open' := db.items.filter fun i => i.turnId = turnId ∧ i.status = .running
  have hclose : KeptItems (closeItems env threadId turnId (closedStatus status) open'
      (endedTurn env turnId status db)) := by
    refine kept_closeItems (closedStatus_ne_running status) ?_ (fun i hi => ?_) hc h
    · exact hc.sublist (List.filter_sublist.map _)
    · obtain ⟨hmem, hp⟩ := List.mem_filter.mp hi
      exact mem_marks.mpr ⟨i, hmem, rfl, (of_decide_eq_true hp).2⟩
  refine kept_same hclose rfl rfl fun e he => ?_
  rw [List.mem_singleton.mp he]
  exact fun ho => ho.elim EventKind.noConfusion EventKind.noConfusion

theorem kept_answered {fresh : Uuid} {messageId : Option Uuid} {answer : String} (h : KeptItems db)
    (hm : answer ≠ "" → ∀ m ∈ messageId, (m, .running) ∈ marks db)
    (hc : Keyed Item.id db.items)
    (hc' : Keyed Item.id (answered env fresh threadId turnId messageId answer db).2.items) :
    KeptItems (answered env fresh threadId turnId messageId answer db).2 := by
  unfold answered at hc' ⊢
  dsimp only at hc' ⊢
  split_ifs at hc' ⊢ with ha
  · exact h
  · cases messageId with
    | some m => exact kept_completeMessage h hc (hm ha m rfl)
    | none =>
      have hkeys := completeMessage_keyed.mp hc'
      refine kept_completeMessage (kept_insertItem h ?_ hkeys) hkeys ?_
      · exact Plain.noItem (by simp [Plain, membersOf]) _
      · exact mem_marks.mpr ⟨_, List.mem_append_right _ (List.mem_singleton.mpr rfl), rfl, rfl⟩

/-! ### The payloads of the calls in flight -/

def PlainPhase (phase : Phase) : Prop :=
  ∀ payload status, phase = .closing payload status → Plain payload ∧ status ≠ .running

def PlainRest : Rest → Prop
  | .record _ _ _ payload => Plain payload
  | .complete _ _ _ payload => Plain payload
  | _ => True

/-- The calls in flight have plain payloads. -/
structure PlainCalls (w : World) : Prop where
  executions : ∀ e ∈ w.executions, PlainPhase e.phase
  calls : ∀ c ∈ w.calls, PlainRest c

section Executions
variable {e : Execution}

theorem plain_enter {phase : Phase} (h : ∀ payload status, phase ≠ .closing payload status) :
    PlainPhase (e.enter phase).phase := fun payload status he => absurd he (h payload status)

theorem plain_fail (e : Execution) (message : String) : PlainPhase (e.fail message).phase := by
  intro payload status he
  obtain ⟨rfl, rfl⟩ := Phase.closing.inj he
  exact ⟨by simp [Plain, membersOf], ItemStatus.noConfusion⟩

theorem plain_act (e : Execution) (result : Called Json) : PlainPhase (e.act result).phase := by
  unfold Execution.act
  split
  · exact plain_fail e _
  · intro payload status he
    obtain ⟨rfl, rfl⟩ := Phase.closing.inj he
    refine ⟨by simp [Plain, membersOf], ?_⟩
    split_ifs <;> exact ItemStatus.noConfusion

theorem plain_transact {β : Type} {body : SessionDb → Except Err (β × SessionDb)} {k : β → Execution}
    (hk : ∀ b, PlainPhase (k b).phase) : PlainPhase (e.transact body k db).1.phase := by
  unfold Execution.transact
  split
  · exact hk _
  · exact plain_fail e _

theorem plain_decided (e : Execution) (d : Decision) : PlainPhase (e.decided d).phase := by
  unfold Execution.decided
  split_ifs
  · exact plain_enter fun _ _ => Phase.noConfusion
  · exact plain_fail e _

/-- **A step of an execution goes on to a plain payload.** -/
theorem plain_advance (env : Env) (fresh : Uuid) (m : Meets) (h : PlainPhase e.phase) :
    PlainPhase (e.advance env fresh m db).1.phase := by
  unfold Execution.advance
  split
  · split_ifs
    · exact plain_transact fun _ => plain_enter (e := e) fun _ _ => Phase.noConfusion
    · exact plain_enter fun _ _ => Phase.noConfusion
  · refine plain_transact fun _ => ?_
    split_ifs
    · exact plain_enter fun _ _ => Phase.noConfusion
    · exact plain_enter fun _ _ => Phase.noConfusion
  · unfold Execution.handle
    split
    · exact plain_fail e _
    · exact plain_fail e _
    · exact plain_transact fun _ => plain_enter fun _ _ => Phase.noConfusion
  · split_ifs
    · exact plain_fail e _
    · exact plain_enter fun _ _ => Phase.noConfusion
  · unfold Execution.check
    split
    · exact plain_fail e _
    · split_ifs
      · exact plain_enter fun _ _ => Phase.noConfusion
      · exact plain_fail e _
  · unfold Execution.read
    split
    · exact plain_fail e _
    · split_ifs
      · exact plain_enter fun _ _ => Phase.noConfusion
      · exact plain_enter fun _ _ => Phase.noConfusion
      · exact plain_enter fun _ _ => Phase.noConfusion
  · unfold Execution.expire
    split
    · exact plain_fail e _
    · exact plain_transact fun _ => plain_enter fun _ _ => Phase.noConfusion
  · split_ifs
    · exact plain_decided e _
    · exact plain_enter fun _ _ => Phase.noConfusion
  · exact plain_transact fun _ => plain_enter fun _ _ => Phase.noConfusion
  · exact plain_transact fun _ => plain_decided e _
  · split_ifs
    · exact plain_fail e _
    · exact plain_enter fun _ _ => Phase.noConfusion
  · exact plain_act e _
  · exact plain_enter fun _ _ => Phase.noConfusion
  · exact h

end Executions

theorem plain_restAdvance (env : Env) (fresh : Uuid) {c : Rest} (h : PlainRest c) :
    PlainRest (c.advance env fresh db).1 := by
  cases c with
  | record threadId turnId kind payload =>
    simp only [Rest.advance]
    split
    · exact h
    · trivial
  | complete | delta | endActive | refresh | nothing => trivial

theorem calls_write {β : Type} (w : World) (body : SessionDb → Except Err (β × SessionDb)) :
    (w.write body).calls = w.calls := rfl

theorem plain_calls (h : ∀ c ∈ w.calls, PlainRest c) (op : Op) :
    ∀ c ∈ (next uuids w op).calls, PlainRest c := by
  have hcall : ∀ (w : World) (c : Rest), (∀ c ∈ w.calls, PlainRest c) → PlainRest c →
      ∀ c' ∈ (World.call c w).calls, PlainRest c' := by
    intro w c hw hc c' hc'
    rcases List.mem_append.mp hc' with hc' | hc'
    · exact hw c' hc'
    · rw [List.mem_singleton.mp hc']
      exact hc
  have handThen : ∀ {β : Type} (body : SessionDb → Except Err (β × SessionDb))
      (k : β → World → World),
      (∀ b db', ∀ c ∈ (k b { w with db := db', drawn := w.drawn + 1 }).calls, PlainRest c) →
      ∀ c ∈ (w.andThen body k).calls, PlainRest c := by
    intro β body k hk
    rcases andThen_cases w body k with ⟨b, db', -, -, he⟩ | he
    · rw [he]
      exact hk b db'
    · rw [he]
      exact h
  have hwrite : ∀ {β : Type} (body : SessionDb → Except Err (β × SessionDb)),
      ∀ c ∈ (w.write body).calls, PlainRest c := fun body => calls_write w body ▸ h
  have hturn : ∀ (k : ℕ) (call : ProtocolTurn → World),
      (∀ p, ∀ c ∈ (call p).calls, PlainRest c) → ∀ c ∈ (w.onTurn k call).calls, PlainRest c := by
    intro k call hc
    unfold World.onTurn
    split
    · exact h
    · exact hc _
  have htext : ∀ (env : Env) (fresh : Uuid) (k : ℕ) (p : ProtocolTurn) (text : String),
      ∀ c ∈ (w.textDelta env fresh k p text).calls, PlainRest c := by
    intro env fresh k p text
    unfold World.textDelta
    split
    · exact hwrite _
    · exact handThen _ _ fun b db' => hcall _ _ h trivial
  have htext' : ∀ text : String, Plain (.obj [("text", .str text)]) := by
    intro text
    simp [Plain, membersOf]
  cases op with
  | createOrGet | appendEvent | checkpoint | requestCancel | respond =>
    rw [next]
    exact hwrite _
  | startTurn =>
    rw [next]
    exact handThen _ _ fun b db' => hcall _ _ h trivial
  | begin =>
    rw [next]
    exact handThen _ _ fun b db' => hcall _ _ h (htext' _)
  | interrupt =>
    rw [next]
    exact handThen _ _ fun b db' => hcall _ _ h trivial
  | bindExecution k sessionId workspace =>
    rw [next]
    have hplain : Plain (.obj [("session_id", .str sessionId), ("workspace", .str workspace)]) := by
      simp [Plain, membersOf]
    exact hturn _ _ fun p => hcall _ _ h hplain
  | item | completeItem =>
    rw [next]
    exact hturn _ _ fun p => hwrite _
  | execute | finish =>
    rw [next]
    exact hturn _ _ fun p => handThen _ _ fun b db' => h
  | textDelta =>
    rw [next]
    exact hturn _ _ fun p => htext _ _ _ _ _
  | progress =>
    rw [next]
    refine hturn _ _ fun p => ?_
    unfold World.progress
    split
    · exact htext _ _ _ _ _
    · split_ifs
      · exact hwrite _
      · exact h
  | step env j m =>
    simp only [next]
    split
    · exact h
    · exact h
  | rest env j =>
    simp only [next]
    split
    · exact h
    · next c hc =>
      intro c' hc'
      rcases List.mem_or_eq_of_mem_set hc' with hc' | rfl
      · exact h c' hc'
      · exact plain_restAdvance env _ (h c (List.mem_of_getElem? hc))

theorem plain_next (h : PlainCalls w) (op : Op) : PlainCalls (next uuids w op) := by
  refine ⟨?_, plain_calls h.calls op⟩
  cases executes_next uuids w op with
  | same he =>
    rw [he]
    exact h.executions
  | @starts e' _ hphase he =>
    rw [he]
    intro e hmem
    rcases List.mem_append.mp hmem with hmem | hmem
    · exact h.executions e hmem
    · rw [List.mem_singleton.mp hmem]
      intro payload status hc
      rw [hphase] at hc
      cases hc
  | @steps env i m e' _ hget he =>
    rw [he]
    intro e hmem
    rcases List.mem_or_eq_of_mem_set hmem with hmem | rfl
    · exact h.executions e hmem
    · exact plain_advance env _ m (h.executions e' (List.mem_of_getElem? hget))

/-! ### Bookkeeping along a run -/

/-- The step keeps the trails: what it brings does not replace the id or the status that name the item,
and a `finish` with an answer finds its message running. -/
def Orderly (uuids : Uuids) (w : World) : Op → Prop
  | .item env k _ payload => ∀ p ∈ w.turns[k]?, Active p.turnId w.db →
      Agrees "item_id" (itemName (uuids.draw w.drawn)) (safe env.host payload)
  | .completeItem env k itemId payload failed => ∀ p ∈ w.turns[k]?,
      (∃ i ∈ w.db.items, Running p.turnId itemId i) →
      Agrees "item_id" (itemName itemId) (safe env.host payload) ∧
      Agrees "status" (if failed then ItemStatus.failed else .completed).text (safe env.host payload)
  | .finish _ k _ answer => ∀ p ∈ w.turns[k]?, Active p.turnId w.db → answer ≠ "" →
      ∀ m ∈ p.messageId, (m, .running) ∈ marks w.db
  | _ => True

theorem agrees_of_brings (h : PlainCalls w) (hb : Brings w op turnId payload)
    (ha : Active turnId w.db) (ho : Orderly uuids w op) :
    Agrees "item_id" (itemName (uuids.draw w.drawn)) payload := by
  cases hb with
  | item hp => exact ho _ hp ha
  | @action env k name arguments =>
    have hplain : Plain (actionOf name arguments) := by simp [Plain, membersOf, actionOf]
    exact (hplain.safe env.host).noItem _
  | @message op turnId env =>
    have hplain : Plain (.obj [("text", .str "")]) := by simp [Plain, membersOf]
    exact (hplain.safe env.host).noItem _
  | @record env j threadId turnId kind payload hc =>
    have hplain : Plain payload := h.calls _ (List.mem_of_getElem? hc)
    exact (hplain.safe env.host).noItem _

theorem agrees_of_completes (h : PlainCalls w) (hcomp : Completes w op turnId itemId payload status)
    (hi : ∃ i ∈ w.db.items, Running turnId itemId i) (ho : Orderly uuids w op) :
    Agrees "item_id" (itemName itemId) payload ∧ Agrees "status" status.text payload ∧
      status ≠ .running := by
  cases hcomp with
  | @item env k p itemId payload failed hp =>
    obtain ⟨hitem, hstatus⟩ := ho p hp hi
    refine ⟨hitem, hstatus, ?_⟩
    split_ifs <;> exact ItemStatus.noConfusion
  | @execution env j m e payload status he hphase =>
    obtain ⟨hplain, hs⟩ := h.executions e (List.mem_of_getElem? he) payload status hphase
    exact ⟨(hplain.safe env.host).noItem _, (hplain.safe env.host).noStatus _, hs⟩
  | @record env j threadId turnId itemId payload hc =>
    have hplain : Plain payload := h.calls _ (List.mem_of_getElem? hc)
    exact ⟨(hplain.safe env.host).noItem _, (hplain.safe env.host).noStatus _,
      ItemStatus.noConfusion⟩

/-- **An orderly step keeps the trails.** -/
theorem kept_of_change (hch : Change uuids w op db') (hc : w.db.Constraints) (hc' : db'.Constraints)
    (hplain : PlainCalls w) (h : KeptItems w.db) (ho : Orderly uuids w op) : KeptItems db' := by
  cases hch with
  | quiet hq =>
    have hs := hq.journal
    have hmarks : marks db' = marks w.db := by
      unfold marks
      rw [hs.items]
    exact kept_silent h hmarks hs.events
  | opens _ _ _ hdb =>
    subst hdb
    exact kept_same h rfl rfl (by simp [OfItem])
  | @recovers env threadId request mode mode' handler t _ _ _ _ _ hdb =>
    subst hdb
    have hrec : KeptItems (recovered env threadId t.id w.db) :=
      kept_same (kept_endTurn h hc.items) rfl rfl (by simp [OfItem])
    exact kept_same hrec rfl rfl (by simp [OfItem])
  | starts hb ha hdb =>
    subst hdb
    exact kept_insertItem h (agrees_of_brings hplain hb ha ho) hc'.items
  | closes hcomp hi hdb =>
    subst hdb
    obtain ⟨hitem, hstatus, hs⟩ := agrees_of_completes hplain hcomp hi ho
    exact kept_closeItem h hc.items hi hs hitem hstatus
  | @streams env threadId i text _ _ hdb =>
    subst hdb
    have hmarks : marks (appendDelta env threadId i.turnId i.id text i.payload w.db) = marks w.db := by
      refine map_updateWhere ?_
      exact fun _ _ => rfl
    exact kept_same h hmarks rfl (by simp [OfItem])
  | progresses _ _ _ _ hdb =>
    rw [← (Prod.mk.inj (Except.ok.inj hdb)).2]
    refine kept_same h rfl rfl ?_
    split_ifs
    · simp [OfItem]
    · simp [OfItem]
  | asks _ _ _ _ hdb =>
    subst hdb
    exact kept_same h rfl rfl (by simp [OfItem])
  | responds _ _ _ _ _ _ _ hdb =>
    subst hdb
    exact kept_same h rfl rfl (by simp [OfItem])
  | expires _ _ hdb =>
    subst hdb
    exact kept_same h rfl rfl (by simp [OfItem])
  | resumes _ _ _ hdb =>
    rw [← (Prod.mk.inj (Except.ok.inj hdb)).2]
    exact kept_silent h rfl rfl
  | finishes hop hp ha _ hdb =>
    subst hop hdb
    have hkeys := endTurn_keyed.mp hc'.items
    exact kept_endTurn (kept_answered h (ho _ hp ha) hc.items hkeys) hkeys
  | interrupts _ _ hdb =>
    rcases endActive_cases hc hdb with ⟨-, rfl⟩ | ⟨t, -, rfl⟩
    · exact h
    · exact kept_endTurn h hc.items

def eventsOf (kind : EventKind) (itemId : Uuid) (db : SessionDb) : List Event :=
  db.events.filter fun e => e.kind = kind ∧ textAt "item_id" e = some (itemName itemId)

/-- **The bookkeeping of turns and items.** -/
structure Booked (db : SessionDb) : Prop where
  /-- a thread has one active turn at most -/
  single : ∀ t ∈ db.turns, ∀ t' ∈ db.turns, t.threadId = t'.threadId → t.status.Active →
    t'.status.Active → t = t'
  approvals : ∀ a ∈ db.approvals, a.decision = .pending →
    ∃ t ∈ db.turns, t.id = a.turnId ∧ t.status.Active
  terminal : ∀ t ∈ db.turns, ¬ t.status.Active → ∀ i ∈ db.items, i.turnId = t.id →
    i.status ≠ .running
  started : ∀ i ∈ db.items, (eventsOf .itemStarted i.id db).length = 1
  /-- once its turn has ended, an item has one later completion, with its status -/
  completed : ∀ t ∈ db.turns, ¬ t.status.Active → ∀ i ∈ db.items, i.turnId = t.id →
    (eventsOf .itemCompleted i.id db).length = 1 ∧
    ∀ c ∈ eventsOf .itemCompleted i.id db, textAt "status" c = some i.status.text ∧
      ∀ s ∈ eventsOf .itemStarted i.id db, s.sequence < c.sequence

theorem eventsOf_eq {kind : EventKind} (hk : kind = .itemStarted ∨ kind = .itemCompleted) :
    eventsOf kind itemId db = (trail itemId db.events).filter fun e => e.kind = kind := by
  unfold eventsOf trail
  rw [List.filter_filter]
  refine List.filter_congr fun e _ => ?_
  rw [← Bool.decide_and]
  refine decide_eq_decide.mpr ⟨fun h => ⟨h.1, ?_, h.2⟩, fun h => ⟨h.1, h.2.2⟩⟩
  rcases hk with hk | hk
  · exact Or.inl (h.1.trans hk)
  · exact Or.inr (h.1.trans hk)

theorem booked_of_kept (hs : Settled w) (hn : Numbered w.db) (hk : KeptItems w.db) :
    Booked w.db := by
  have hc := hs.linked.constraints
  have htrail : ∀ i ∈ w.db.items, Trail i.status (trail i.id w.db.events) :=
    fun i hi => hk.trails (i.id, i.status) (mem_marks.mpr ⟨i, hi, rfl, rfl⟩)
  have hrunning : ∀ t ∈ w.db.turns, ¬ t.status.Active → ∀ i ∈ w.db.items, i.turnId = t.id →
      i.status ≠ .running := by
    intro t ht hactive i hi hturn hr
    exact hactive (active_of_mem hc.turns (hturn ▸ hs.sound.items i hi hr) ht)
  refine ⟨fun t ht t' ht' hthread ha ha' => ?_, fun a ha hp => ?_, hrunning, fun i hi => ?_,
    fun t ht hactive i hi hturn => ?_⟩
  · exact hc.single.eq_of_key (List.mem_filter.mpr ⟨ht, decide_eq_true ha⟩)
      (List.mem_filter.mpr ⟨ht', decide_eq_true ha'⟩) hthread
  · exact (active_iff hc.turns).mp (hs.sound.approvals a ha hp)
  · rw [eventsOf_eq (Or.inl rfl)]
    have ht := htrail i hi
    generalize trail i.id w.db.events = l at ht
    cases ht with
    | running hstart _ => simp [hstart]
    | completed hstart hcomp _ _ => simp [hstart, hcomp]
  · rw [eventsOf_eq (Or.inl rfl), eventsOf_eq (Or.inr rfl)]
    have hordered : (trail i.id w.db.events).Pairwise fun e e' => e.sequence < e'.sequence :=
      hn.ordered.filter _
    have hne := hrunning t ht hactive i hi hturn
    have ht := htrail i hi
    generalize trail i.id w.db.events = l at ht hordered
    cases ht with
    | running _ hr => exact absurd hr hne
    | @completed s c hstart hcomp hstatus _ =>
      have hlt : s.sequence < c.sequence := (List.pairwise_cons.mp hordered).1 c (by simp)
      simp [hstart, hcomp, hstatus, hlt]

/-- What holds of a world in every orderly run. -/
structure Orderliness (uuids : Uuids) (w : World) : Prop where
  settled : Settled w
  numbered : Numbered w.db
  plain : PlainCalls w
  kept : KeptItems w.db

theorem orderliness_empty : Orderliness uuids {} := by
  refine ⟨settled_empty, ⟨List.Pairwise.nil, by simp, by simp⟩, ⟨by simp, by simp⟩, ?_, ?_⟩
  · simp [marks]
  · simp

theorem orderliness_next (h : Orderliness uuids w) (ho : Orderly uuids w op) :
    Orderliness uuids (next uuids w op) := by
  have hdoes : Does uuids w op (next uuids w op).db := does_next h.settled.linked op
  exact ⟨settled_next h.settled op, (appends_next h.settled.linked op).numbered h.numbered,
    plain_next h.plain op, kept_of_change hdoes.change h.settled.linked.constraints
      hdoes.constraints h.plain h.kept ho⟩

/-- **In an orderly run the ledger is booked in every state.** -/
theorem booked_after (uuids : Uuids) (ops : List Op) (h : Along (next uuids) (Orderly uuids) {} ops) :
    Booked (after uuids ops).db := by
  have hrun := inv_run (I := Orderliness uuids) (fun w op hI ho => orderliness_next hI ho)
    orderliness_empty h
  exact booked_of_kept hrun.settled hrun.numbered hrun.kept

/-- A streamed answer, which a `finish` completes. -/
theorem booked_after_stream :
    Booked (after ids (firstSteps ++ [.textDelta (clock 5) 0 "First", .rest (clock 6) 1,
      .finish (clock 7) 0 "completed" "First of all"])).db := by
  refine booked_after ids _ ⟨trivial, trivial, trivial, trivial, trivial, trivial, ?_, trivial⟩
  unfold Orderly
  decide

/-- The message of the answer is completed, and `finish` completes it again. -/
theorem not_booked_completed_twice :
    ¬ Booked (after ids (firstSteps ++ [.textDelta (clock 5) 0 "First", .rest (clock 6) 1,
      .completeItem (clock 7) 0 4 (.obj [("text", .str "First")]) false,
      .finish (clock 8) 0 "completed" "First of all"])).db := by
  intro h
  have hcompleted := h.completed
  revert hcompleted
  decide

end Smara.Session.Items
