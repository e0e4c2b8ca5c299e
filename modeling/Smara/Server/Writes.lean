import Smara.Server.Ledger

/-! # What a call writes to the ledger

An ordinary write creates an obligation, changes what is owed, or moves an obligation that is not paid from
the state that it has, each with its event. Four calls may write something else: the decision of an
adjustment, the release of a claim, the undoing of a reminder that could not be sent, and a tap for a party
that has said stop.

* `Ordinary`: the ordinary writes.
* `decides`, `releases`, `rollsBack`, `declines`: the calls of the other kind.
* `step_ordinary`: any other call makes ordinary writes. -/

namespace Smara.Server.Writes

open Lib.Table Server.Schema Server.Ledger
open TaskStore.Schema (Time seconds)
open Relation (ReflTransGen)

/-! ### The ledger of a database -/

structure Book where
  obligations : List Obligation
  events : List ObligationEvent

def book (db : Db) : Book := ⟨db.obligations, db.events⟩

def Book.write (id : Id) (f : Obligation → Obligation) (e : ObligationEvent) (b : Book) : Book :=
  ⟨updateWhere (fun p => p.id = id) f b.obligations, b.events ++ [e]⟩

inductive Ordinary : Book → Book → Prop
  | create {b : Book} {o : Obligation} {e : ObligationEvent} (hnew : ∀ p ∈ b.obligations, p.id ≠ o.id)
    (he : e.obligationId = o.id ∧ e.fromState = none ∧ e.toState = o.state) :
    Ordinary b ⟨b.obligations ++ [o], b.events ++ [e]⟩
  | amend {b : Book} {o : Obligation} {f : Obligation → Obligation} (hmem : o ∈ b.obligations)
    (hunpaid : o.state ≠ .paid) (hf : ∀ p, (f p).id = p.id ∧ (f p).state = p.state) :
    Ordinary b ⟨updateWhere (fun p => p.id = o.id) f b.obligations, b.events⟩
  | move {b : Book} {o : Obligation} {f : Obligation → Obligation} {e : ObligationEvent}
    (hmem : o ∈ b.obligations) (hunpaid : o.state ≠ .paid)
    (hf : ∀ p, (f p).id = p.id ∧ (f p).amountPaise = p.amountPaise ∧ (f p).state = e.toState)
    (he : e.obligationId = o.id ∧ e.fromState = some o.state) :
    Ordinary b (b.write o.id f e)

def Distinct (b : Book) : Prop := Keyed Obligation.id b.obligations

theorem distinct_write {b : Book} {id : Id} {f : Obligation → Obligation} {e : ObligationEvent}
    (hf : ∀ p, (f p).id = p.id) : Distinct (b.write id f e) ↔ Distinct b :=
  keyed_updateWhere fun p _ => hf p

theorem distinct_ordinary {b b' : Book} (h : Ordinary b b') (hd : Distinct b) : Distinct b' := by
  cases h with
  | create hnew he =>
    refine keyed_append.mpr ⟨hd, by simp [Keyed], ?_⟩
    intro p hp q hq
    rw [List.mem_singleton.mp hq]
    exact hnew p hp
  | amend hmem hunpaid hf => exact (keyed_updateWhere fun p _ => (hf p).1).mpr hd
  | move hmem hunpaid hf he => exact (distinct_write fun p => (hf p).1).mpr hd

theorem distinct_ordinaries {b b' : Book} (h : ReflTransGen Ordinary b b') (hd : Distinct b) :
    Distinct b' := by
  induction h with
  | refl => exact hd
  | tail _ h ih => exact distinct_ordinary h ih

/-! ### The calls of the other kind -/

def decides (s : State) : Action → Option (Adjustment × Obligation × Bool)
  | .decideAdjustment tenantId adjustmentId approve _ =>
    match s.db.adjustment adjustmentId with
    | none => none
    | some a =>
      match s.db.obligation a.obligationId with
      | none => none
      | some o => if o.tenantId ≠ tenantId ∨ a.status ≠ .pending then none else some (a, o, approve)
  | _ => none

/-- The job that goes on, and whether what it sends was sent. -/
def jobOf (s : State) : Action → Option (Job × Bool)
  | .goOn job ok _ _ _ => s.jobs[job]?.map fun j => (j, ok)
  | _ => none

/-- The obligation whose claim the call releases, as it was claimed. -/
def releases (s : State) (a : Action) : Option Obligation :=
  match jobOf s a with
  | some (.ask o, false) => some o
  | _ => none

def rollsBack (s : State) (a : Action) : Option Obligation :=
  match jobOf s a with
  | some (.remind o, false) => some o
  | _ => none

/-- The obligation of a party that has said stop, for which the owner taps send. -/
def declines (quiet : Time → Bool) (s : State) : Action → Option Obligation
  | .decideReminder tenantId obligationId .send now =>
    match s.db.obligation obligationId with
    | none => none
    | some o =>
      if quiet now ∨ o.tenantId ≠ tenantId ∨ o.state ≠ .waitingOwnerApproval ∨ ¬ OptedOut s.db o then none
      else some o
  | _ => none

/-! ### The writes of each call -/

theorem mem_of_obligation {db : Db} {id : Id} {o : Obligation} (h : db.obligation id = some o) :
    o ∈ db.obligations ∧ o.id = id := ⟨mem_of_lookup h, key_of_lookup h⟩

@[simp] theorem book_event (db : Db) (id : Id) (fromState : Option ObligationState) (toState : ObligationState)
    (actor : Actor) (source : Option String) : book (db.event id fromState toState actor source) =
      ⟨db.obligations, db.events ++ [⟨id, fromState, toState, actor, source⟩]⟩ := rfl

@[simp] theorem book_enqueue (now : Time) (userId sourceId text : String) (trusted : Bool) (stamp : Option Id)
    (db : Db) : book (enqueue now userId sourceId text trusted stamp db) = book db := by
  unfold enqueue
  split_ifs
  · rfl
  · rfl

@[simp] theorem book_recordMessage (tenantId : Id) (kind : Kind) (toPhone : String) (obligationId : Option Id)
    (msgId : Option String) (db : Db) :
    book (recordMessage tenantId kind toPhone obligationId msgId db) = book db := by
  cases msgId with
  | none => rfl
  | some msgId => rfl

@[simp] theorem book_applyStatus (msgId : String) (status : MessageStatus) (errorCode : Option ℤ) (db : Db) :
    book (applyStatus msgId status errorCode db).1 = book db := by
  unfold applyStatus applyFailed
  split_ifs
  · split
    · rfl
    · split_ifs
      all_goals rfl
  · rfl

@[simp] theorem book_submitDebtorClaim (tenantId partyId obligationId : Id) (sourceId : String)
    (kind : AdjustmentType) (evidence : String) (amount : Option ℤ) (date : Option Day) (adjustmentId : Id)
    (now : Time) (db : Db) : book (submitDebtorClaim tenantId partyId obligationId sourceId kind evidence amount
      date adjustmentId now db) = book db := by
  unfold submitDebtorClaim
  split_ifs
  · rfl
  · simp only
    split_ifs
    · exact book_enqueue ..
    · exact book_enqueue now _ sourceId evidence false none db

theorem book_importParty {tenantId : Id} {r : SheetRow} {db : Db} {partyId : Id} {db' : Db}
    (h : importParty tenantId r db = some (partyId, db')) : book db' = book db := by
  unfold importParty at h
  split at h
  · cases h
    rfl
  · split_ifs at h
    cases h
    rfl

theorem ordinary_importObligation {tenantId partyId : Id} {now : Time} {r : SheetRow} {db db' : Db}
    (hd : Distinct (book db)) (h : importObligation tenantId partyId now r db = some db') :
    ReflTransGen Ordinary (book db) (book db') := by
  unfold importObligation at h
  by_cases hamount : r.amountPaise < 0
  · rw [if_pos hamount] at h
    cases h
  rw [if_neg hamount] at h
  split at h
  · rename_i o hfind
    have hmem : o ∈ db.obligations := List.mem_of_find?_eq_some hfind
    obtain rfl := Option.some.inj h
    by_cases hpaid : o.state = .paid
    · have hsame : updateWhere (fun p => p.id = o.id ∧ p.state ≠ .paid)
          (fun p => { p with amountPaise := r.amountPaise, dueDate := r.dueDate }) db.obligations =
            db.obligations := by
        refine updateWhere_eq_self fun p hp => ?_
        rintro ⟨hid, hstate⟩
        exact hstate (by rw [Keyed.eq_of_key hd hp hmem hid, hpaid])
      rw [Db.updateObligation, hsame]
    · have hkey := updateWhere_key_and (f := fun p : Obligation =>
        { p with amountPaise := r.amountPaise, dueDate := r.dueDate }) (t := db.obligations) hd hmem
        (q := fun p => p.state ≠ .paid) hpaid
      refine .single ?_
      rw [Db.updateObligation, hkey]
      exact .amend hmem hpaid fun p => ⟨rfl, rfl⟩
  · split_ifs at h with hold
    obtain rfl := Option.some.inj h
    refine .single (.create ?_ ⟨rfl, rfl, rfl⟩)
    intro p hp hid
    have hid : p.id = r.obligationId := hid
    refine hold ?_
    rw [Db.obligation, ← hid, lookup_key (t := db.obligations) hd hp]
    rfl

theorem ordinary_importAll {tenantId : Id} {now : Time} {rows : List SheetRow} {db db' : Db}
    (hd : Distinct (book db)) (h : importAll tenantId now rows db = some db') :
    ReflTransGen Ordinary (book db) (book db') := by
  induction rows generalizing db with
  | nil =>
    cases h
    exact .refl
  | cons r rows ih =>
    unfold importAll at h
    split at h
    · cases h
    · rename_i partyId db₁ hparty
      split at h
      · cases h
      · rename_i db₂ hobligation
        have hbook := book_importParty hparty
        have h₁ := ordinary_importObligation (by rwa [hbook]) hobligation
        rw [hbook] at h₁
        exact h₁.trans (ih (distinct_ordinaries h₁ hd) h)

theorem ordinary_importRows {tenantId : Id} {now : Time} {rows : List SheetRow} {db : Db}
    (hd : Distinct (book db)) : ReflTransGen Ordinary (book db) (book (importRows tenantId now rows db)) := by
  unfold importRows
  cases h : importAll tenantId now rows db with
  | none => exact .refl
  | some db' => exact ordinary_importAll hd h

theorem mem_dueRows {now : Time} {limit : ℕ} {locked : List Id} {db : Db} {o : Obligation}
    (h : o ∈ dueRows now limit locked db) : o ∈ db.obligations ∧ Due now db o ∧ o.id ∉ locked := by
  have hsort := (List.mergeSort_perm _ _).mem_iff.mp (List.mem_of_mem_take h)
  simpa using hsort

theorem dueRows_ids {now : Time} {limit : ℕ} {locked : List Id} {db : Db} (hd : Distinct (book db)) :
    ((dueRows now limit locked db).map Obligation.id).Nodup := by
  refine List.Nodup.sublist ((List.take_sublist ..).map _) ?_
  rw [((List.mergeSort_perm _ _).map Obligation.id).nodup_iff]
  exact hd.sublist (List.filter_sublist.map _)

theorem ordinary_claimRows {rows : List Obligation} {db : Db} (hids : (rows.map Obligation.id).Nodup)
    (hrows : ∀ o ∈ rows, o ∈ db.obligations ∧ o.state ≠ .paid) :
    ReflTransGen Ordinary (book db) (book (rows.foldl (fun db o => claimRow o db) db)) := by
  induction rows generalizing db with
  | nil => exact .refl
  | cons o rows ih =>
    obtain ⟨hnew, hids⟩ := List.nodup_cons.mp hids
    have hmove : Ordinary (book db) (book (claimRow o db)) :=
      .move (hrows o (by simp)).1 (hrows o (by simp)).2 (fun p => ⟨rfl, rfl, rfl⟩) ⟨rfl, rfl⟩
    refine .head hmove (ih hids fun p hp => ⟨?_, (hrows p (by simp [hp])).2⟩)
    refine mem_updateWhere.mpr ⟨p, (hrows p (by simp [hp])).1, if_neg fun heq => hnew ?_⟩
    rw [← heq]
    exact List.mem_map_of_mem hp

theorem ordinary_claimDue {now : Time} {limit : ℕ} {locked : List Id} {db : Db} (hd : Distinct (book db)) :
    ReflTransGen Ordinary (book db) (book (claimDue now limit locked db).1) := by
  refine ordinary_claimRows (dueRows_ids hd) fun o ho => ?_
  obtain ⟨hmem, ⟨hstate, -⟩, -⟩ := mem_dueRows ho
  refine ⟨hmem, ?_⟩
  rintro hpaid
  simp [hpaid] at hstate

theorem ordinary_transition {id : Id} {fromState toState : ObligationState} {followup : Time} {attempts : ℤ}
    {db : Db} (hd : Distinct (book db)) (hunpaid : fromState ≠ .paid) :
    ReflTransGen Ordinary (book db) (book (transition id fromState toState followup attempts db)) := by
  unfold transition
  cases h : db.obligation id with
  | none => exact .refl
  | some o =>
    obtain ⟨hmem, rfl⟩ := mem_of_obligation h
    simp only
    split_ifs with hstate
    · have hkey := updateWhere_key_and (f := fun p : Obligation => { p with
        state := toState, nextFollowupAt := some followup, attemptCount := p.attemptCount + attempts })
        (t := db.obligations) hd hmem (q := fun p => p.state = fromState) hstate
      refine .single ?_
      rw [book_event, Db.updateObligation, hkey]
      exact .move hmem (by rwa [hstate]) (fun p => ⟨rfl, rfl, rfl⟩) ⟨rfl, by rw [hstate]⟩
    · exact .refl

theorem ordinary_undoReminder {id : Id} {now : Time} {db : Db} :
    ReflTransGen Ordinary (book db) (book (undoReminder id now db)) := by
  unfold undoReminder
  cases h : db.obligation id with
  | none => exact .refl
  | some o =>
    obtain ⟨hmem, rfl⟩ := mem_of_obligation h
    simp only
    split_ifs with hstate
    · exact .single (.move hmem (by simp [hstate]) (fun p => ⟨rfl, rfl, rfl⟩) ⟨rfl, by rw [hstate]⟩)
    · exact .refl

theorem ordinary_decideReminder {quiet : Time → Bool} {tenantId id : Id} {tap : Tap} {now : Time} {s : State}
    (h : declines quiet s (.decideReminder tenantId id tap now) = none) :
    ReflTransGen Ordinary (book s.db) (book (decideReminder quiet tenantId id tap now s.db).1) := by
  unfold decideReminder
  by_cases hquiet : tap = .send ∧ quiet now
  · rw [if_pos hquiet]
  rw [if_neg hquiet]
  cases hrow : s.db.obligation id with
  | none => exact .refl
  | some o =>
    obtain ⟨hmem, rfl⟩ := mem_of_obligation hrow
    simp only
    split_ifs with hother hstop
    · exact .refl
    · obtain ⟨rfl, hstop⟩ := hstop
      simp only [declines, hrow] at h
      split_ifs at h with hnot
      simp_all
    all_goals
      simp only [not_or, ne_eq, not_not] at hother
      exact .single (.move hmem (by simp [hother.2]) (fun p => ⟨rfl, rfl, rfl⟩) ⟨rfl, rfl⟩)

theorem step_goOn {quiet : Time → Bool} {s : State} {job : ℕ} {ok : Bool} {msgId : Option String}
    {toPhone : String} {now : Time} {j : Job} (h : s.jobs[job]? = some j) :
    (step quiet s (.goOn job ok msgId toPhone now)).db = (goOn ok msgId toPhone now s.db j).1 := by
  simp only [step, h, State.with]

theorem ordinary_goOn {ok : Bool} {msgId : Option String} {toPhone : String} {now : Time} {db : Db} {j : Job}
    (hd : Distinct (book db)) (hask : ∀ o, j = .ask o → ok = true) (hremind : ∀ o, j = .remind o → ok = true) :
    ReflTransGen Ordinary (book db) (book (goOn ok msgId toPhone now db j).1) := by
  cases j with
  | ask o =>
    rw [hask o rfl]
    exact .refl
  | remind o =>
    rw [hremind o rfl]
    simp only [goOn, if_true, book_recordMessage]
    exact .refl
  | remember o =>
    cases ok with
    | true =>
      simp only [goOn, if_true, recordSent, book_enqueue]
      exact .refl
    | false => exact .refl
  | deliver tenantId o =>
    cases ok with
    | true =>
      simp only [goOn, if_true, book_recordMessage]
      exact .refl
    | false => exact .refl
  | dispatch id => exact ordinary_transition hd (by decide)
  | reject id => exact ordinary_transition hd (by decide)
  | undo id => exact ordinary_undoReminder

theorem decideAdjustment_of_none {s : State} {tenantId adjustmentId : Id} {approve : Bool} {now : Time}
    (h : decides s (.decideAdjustment tenantId adjustmentId approve now) = none) :
    decideAdjustment tenantId adjustmentId approve now s.db = s.db := by
  cases ha : s.db.adjustment adjustmentId with
  | none => simp only [decideAdjustment, ha]
  | some a =>
    cases ho : s.db.obligation a.obligationId with
    | none => simp only [decideAdjustment, ha, ho]
    | some o =>
      simp only [decides, ha, ho] at h
      split_ifs at h with hother
      simp only [decideAdjustment, ha, ho, if_pos hother]

/-- **Any other call makes ordinary writes.** -/
theorem step_ordinary {quiet : Time → Bool} {s : State} {a : Action} (hd : Distinct (book s.db))
    (hdecides : decides s a = none) (hreleases : releases s a = none) (hrollsBack : rollsBack s a = none)
    (hdeclines : declines quiet s a = none) :
    ReflTransGen Ordinary (book s.db) (book (step quiet s a).db) := by
  cases a with
  | importRows tenantId now rows => exact ordinary_importRows hd
  | claimDue now limit locked => exact ordinary_claimDue hd
  | decideReminder tenantId id tap now => exact ordinary_decideReminder hdeclines
  | submitDebtorClaim =>
    simp only [step, State.with, book_submitDebtorClaim]
    exact .refl
  | decideAdjustment tenantId adjustmentId approve now =>
    simp only [step, State.with, decideAdjustment_of_none hdecides]
    exact .refl
  | deliverMessage => exact .refl
  | onRejected => exact .refl
  | applyStatus msgId status errorCode =>
    simp only [step, State.with, book_applyStatus]
    exact .refl
  | handleOpt => exact .refl
  | goOn job ok msgId toPhone now =>
    cases hjob : s.jobs[job]? with
    | none =>
      simp only [step, hjob]
      exact .refl
    | some j =>
      rw [step_goOn hjob]
      refine ordinary_goOn hd ?_ ?_
      · rintro o rfl
        cases ok with
        | true => rfl
        | false => simp [releases, jobOf, hjob] at hreleases
      · rintro o rfl
        cases ok with
        | true => rfl
        | false => simp [rollsBack, jobOf, hjob] at hrollsBack

/-! ### The other writes -/

def decisionEvent (a : Adjustment) (o : Obligation) (approve : Bool) : ObligationEvent :=
  ⟨o.id, some o.state, (if approve then Adjustment.apply a o else o).state, .owner, some a.continuumSourceId⟩

theorem id_apply (a : Adjustment) (o : Obligation) : (Adjustment.apply a o).id = o.id := by
  unfold Adjustment.apply
  split
  all_goals rfl

theorem mem_decides {s : State} {c : Action} {a : Adjustment} {o : Obligation} {approve : Bool}
    (h : decides s c = some (a, o, approve)) :
    a ∈ s.db.adjustments ∧ a.status = .pending ∧ s.db.obligation o.id = some o ∧ a.obligationId = o.id := by
  cases c with
  | decideAdjustment tenantId adjustmentId approve' now =>
    simp only [decides] at h
    split at h
    · cases h
    · rename_i a' ha
      split at h
      · cases h
      · rename_i o' ho
        split_ifs at h with hother
        cases h
        have hid := (mem_of_obligation ho).2
        refine ⟨mem_of_lookup ha, by simpa using (not_or.mp hother).2, ?_, hid.symm⟩
        rwa [hid]
  | _ => cases h

theorem book_decides (quiet : Time → Bool) {s : State} {c : Action} {a : Adjustment} {o : Obligation}
    {approve : Bool} (h : decides s c = some (a, o, approve)) :
    o ∈ s.db.obligations ∧ book (step quiet s c).db = (book s.db).write o.id
      (fun p => if approve then Adjustment.apply a p else p) (decisionEvent a o approve) := by
  cases c with
  | decideAdjustment tenantId adjustmentId approve' now =>
    simp only [decides] at h
    split at h
    · cases h
    · rename_i a' ha
      split at h
      · cases h
      · rename_i o' ho
        split_ifs at h with hother
        cases h
        refine ⟨(mem_of_obligation ho).1, ?_⟩
        simp only [step, State.with, decideAdjustment, ha, ho, if_neg hother, book_enqueue]
        rfl
  | _ => cases h

theorem jobOf_eq {s : State} {c : Action} {j : Job} {ok : Bool} (h : jobOf s c = some (j, ok)) :
    ∃ job msgId toPhone now, c = .goOn job ok msgId toPhone now ∧ s.jobs[job]? = some j := by
  cases c with
  | goOn job ok' msgId toPhone now =>
    obtain ⟨j', hj, heq⟩ := Option.map_eq_some_iff.mp h
    cases heq
    exact ⟨job, msgId, toPhone, now, rfl, hj⟩
  | _ => cases h

theorem book_rollsBack (quiet : Time → Bool) {s : State} {c : Action} {o : Obligation}
    (h : rollsBack s c = some o) : ∃ now, book (step quiet s c).db = (book s.db).write o.id
      (fun p => { p with
        state := .active, nextFollowupAt := some (now + minutes 10), attemptCount := p.attemptCount - 1 })
      ⟨o.id, some .dispatched, .active, .systemCron, none⟩ := by
  unfold rollsBack at h
  split at h
  · rename_i o' hjob
    cases h
    obtain ⟨job, msgId, toPhone, now, rfl, hj⟩ := jobOf_eq hjob
    refine ⟨now, ?_⟩
    rw [step_goOn hj]
    rfl
  · cases h

theorem book_releases (quiet : Time → Bool) {s : State} {c : Action} {o : Obligation}
    (h : releases s c = some o) : ∃ now, book (step quiet s c).db =
      ⟨updateWhere (fun p => p.id = o.id ∧ p.state = .waitingOwnerApproval)
        (fun p => { p with state := o.state, nextFollowupAt := some (now + minutes 10) }) s.db.obligations,
        s.db.events ++ [⟨o.id, some .waitingOwnerApproval, o.state, .systemCron, none⟩]⟩ := by
  unfold releases at h
  split at h
  · rename_i o' hjob
    cases h
    obtain ⟨job, msgId, toPhone, now, rfl, hj⟩ := jobOf_eq hjob
    refine ⟨now, ?_⟩
    rw [step_goOn hj]
    rfl
  · cases h

theorem book_declines {quiet : Time → Bool} {s : State} {c : Action} {o : Obligation}
    (h : declines quiet s c = some o) : o ∈ s.db.obligations ∧ o.state = .waitingOwnerApproval ∧
      ∃ now, book (step quiet s c).db = ⟨updateWhere (fun p => p.id = o.id)
        (fun p => { p with state := .snoozed, nextFollowupAt := some (now + days 30) }) s.db.obligations,
        s.db.events⟩ := by
  cases c with
  | decideReminder tenantId id tap now =>
    cases tap with
    | send =>
      simp only [declines] at h
      split at h
      · cases h
      · rename_i o' ho
        split_ifs at h with hnot
        cases h
        simp only [not_or, ne_eq, not_not] at hnot
        obtain ⟨hquiet, htenant, hstate, hstop⟩ := hnot
        obtain ⟨hmem, rfl⟩ := mem_of_obligation ho
        refine ⟨hmem, hstate, now, ?_⟩
        simp only [step, State.with, decideReminder]
        rw [if_neg (by simp [hquiet]), ho]
        simp only [htenant, hstate, hstop, ne_eq, not_true_eq_false, or_self, and_self, if_true, if_false]
        rfl
    | snooze => cases h
    | paid => cases h
  | _ => cases h

theorem distinct_step {quiet : Time → Bool} {s : State} {c : Action} (hd : Distinct (book s.db)) :
    Distinct (book (step quiet s c).db) := by
  cases hdecides : decides s c with
  | some x =>
    obtain ⟨a, o, approve⟩ := x
    rw [(book_decides quiet hdecides).2, distinct_write fun p => ?_]
    · exact hd
    · split_ifs
      · exact id_apply a p
      · rfl
  | none =>
    cases hrollsBack : rollsBack s c with
    | some o =>
      obtain ⟨now, hbook⟩ := book_rollsBack quiet hrollsBack
      rw [hbook]
      refine (distinct_write fun p => ?_).mpr hd
      rfl
    | none =>
      cases hreleases : releases s c with
      | some o =>
        obtain ⟨now, hbook⟩ := book_releases quiet hreleases
        rw [hbook]
        refine (keyed_updateWhere fun p _ => ?_).mpr hd
        rfl
      | none =>
        cases hdeclines : declines quiet s c with
        | some o =>
          obtain ⟨-, -, now, hbook⟩ := book_declines hdeclines
          rw [hbook]
          refine (keyed_updateWhere fun p _ => ?_).mpr hd
          rfl
        | none => exact distinct_ordinaries (step_ordinary hd hdecides hreleases hrollsBack hdeclines) hd

end Smara.Server.Writes
