import Smara.Server.History

/-! # What was collected

The report to the owner counts the invoices that were paid in a period, and adds up their amounts, from the log of
events. An invoice has more than one event that says paid if it is decided again once it is paid.

* `got`: the query of `owner_report`.
* `entered`: the invoices that entered the state in the period.
* `Once`: the calls that mark no invoice as paid that was marked before.
* `collected_once`: in a run of such calls the report is right. -/

namespace Smara.Server.Collected

open Lib.Machine Lib.Table Server.Schema Server.Ledger Server.Writes Server.History
open TaskStore.Schema (Time seconds)
open Relation (ReflTransGen)

/-! ### The report -/

/-- The rows of the query: the events that say paid, each with its invoice. The times are `created_at` of the events. -/
def paidRows (tenantId : Id) (since : Time) (times : List Time) (db : Db) : List (ObligationEvent × Obligation) :=
  (db.events.zip times).filterMap fun e =>
    (db.obligation e.1.obligationId).bind fun o =>
      if o.tenantId = tenantId ∧ e.1.toState = .paid ∧ since ≤ e.2 then some (e.1, o) else none

/-- `got` of `owner_report`: `count(DISTINCT e.obligation_id)` and `sum(o.amount_paise)` -/
def got (tenantId : Id) (since : Time) (times : List Time) (db : Db) : ℕ × ℤ :=
  (((paidRows tenantId since times db).map fun row => row.1.obligationId).dedup.length,
    ((paidRows tenantId since times db).map fun row => row.2.amountPaise).sum)

/-- The invoices that entered the state `PAID` in the period. -/
def entered (tenantId : Id) (since : Time) (times : List Time) (db : Db) : List Obligation :=
  db.obligations.filter fun o => o.tenantId = tenantId ∧ ∃ e ∈ db.events.zip times,
    e.1.obligationId = o.id ∧ e.1.toState = .paid ∧ e.1.fromState ≠ some .paid ∧ since ≤ e.2

/-- **The report is right** for every shop and every period, whenever the events were written. -/
def Right (db : Db) : Prop :=
  ∀ tenantId since times, times.length = db.events.length →
    got tenantId since times db =
      ((entered tenantId since times db).length, ((entered tenantId since times db).map Obligation.amountPaise).sum)

def paidEvents (events : List ObligationEvent) : List ObligationEvent := events.filter fun e => e.toState = .paid

/-- Each invoice is marked as paid once at most, when it is not. -/
structure Counted (db : Db) : Prop where
  distinct : Distinct (book db)
  once : ((paidEvents db.events).map ObligationEvent.obligationId).Nodup
  entering : ∀ e ∈ paidEvents db.events, e.fromState ≠ some .paid

theorem mem_paidRows {tenantId : Id} {since : Time} {times : List Time} {db : Db} {e : ObligationEvent} {o : Obligation} :
    (e, o) ∈ paidRows tenantId since times db ↔ db.obligation e.obligationId = some o ∧ o.tenantId = tenantId ∧
      ∃ t, (e, t) ∈ db.events.zip times ∧ e.toState = .paid ∧ since ≤ t := by
  simp only [paidRows, List.mem_filterMap, Option.bind_eq_some_iff, Prod.exists]
  constructor
  · rintro ⟨e', t, hmem, o', ho', h⟩
    split_ifs at h with hpaid
    obtain ⟨rfl, rfl⟩ := Prod.mk.inj (Option.some.inj h)
    exact ⟨ho', hpaid.1, t, hmem, hpaid.2⟩
  · rintro ⟨ho, htenant, t, hmem, hpaid⟩
    exact ⟨e, t, hmem, o, ho, if_pos ⟨htenant, hpaid⟩⟩

theorem rows_sublist {tenantId : Id} {since : Time} {times : List Time} {db : Db} (h : times.length = db.events.length) :
    List.Sublist ((paidRows tenantId since times db).map fun row => row.1) (paidEvents db.events) := by
  have hzip : (db.events.zip times).map Prod.fst = db.events := List.map_fst_zip (Nat.le_of_eq h.symm)
  have hsub : ∀ l : List (ObligationEvent × Time), List.Sublist ((l.filterMap fun e =>
      (db.obligation e.1.obligationId).bind fun o =>
        if o.tenantId = tenantId ∧ e.1.toState = .paid ∧ since ≤ e.2 then some (e.1, o) else none).map
          fun row => row.1) (paidEvents (l.map Prod.fst)) := by
    intro l
    induction l with
    | nil => exact List.Sublist.refl _
    | cons e l ih =>
      rw [List.filterMap_cons, List.map_cons, paidEvents, List.filter_cons]
      cases ho : db.obligation e.1.obligationId with
      | none =>
        rw [Option.bind_none]
        split_ifs
        · exact ih.cons _
        · exact ih
      | some o =>
        rw [Option.bind_some]
        by_cases hpaid : o.tenantId = tenantId ∧ e.1.toState = .paid ∧ since ≤ e.2
        · rw [if_pos hpaid, if_pos (decide_eq_true hpaid.2.1), List.map_cons]
          exact ih.cons_cons _
        · rw [if_neg hpaid]
          split_ifs
          · exact ih.cons _
          · exact ih
  have := hsub (db.events.zip times)
  rwa [hzip] at this

/-- **The report is right** if each invoice was marked once. -/
theorem right_of_counted {db : Db} (h : Counted db) : Right db := by
  intro tenantId since times hlength
  have hids : ((paidRows tenantId since times db).map fun row => row.1.obligationId).Nodup := by
    have hsub := (@rows_sublist tenantId since times db hlength).map ObligationEvent.obligationId
    rw [List.map_map] at hsub
    exact h.once.sublist hsub
  have hinvoice : ∀ row ∈ paidRows tenantId since times db, row.1.obligationId = row.2.id := by
    rintro ⟨e, o⟩ hrow
    exact (mem_of_obligation (mem_paidRows.mp hrow).1).2.symm
  have hrows : (((paidRows tenantId since times db).map Prod.snd).map Obligation.id).Nodup := by
    rw [List.map_map]
    rw [List.map_congr_left hinvoice] at hids
    exact hids
  have hperm : ((paidRows tenantId since times db).map Prod.snd).Perm (entered tenantId since times db) := by
    refine (List.perm_ext_iff_of_nodup (List.Nodup.of_map _ hrows) ?_).mpr fun o => ?_
    · exact (List.Nodup.of_map _ h.distinct).filter _
    · simp only [List.mem_map, Prod.exists, exists_eq_right, entered, List.mem_filter, decide_eq_true_eq]
      constructor
      · rintro ⟨e, hrow⟩
        obtain ⟨ho, htenant, t, hmem, hpaid, hsince⟩ := mem_paidRows.mp hrow
        obtain ⟨hmemo, hid⟩ := mem_of_obligation ho
        have hevent : e ∈ paidEvents db.events :=
          List.mem_filter.mpr ⟨(List.of_mem_zip hmem).1, decide_eq_true hpaid⟩
        exact ⟨hmemo, htenant, e, t, hmem, hid.symm, hpaid, h.entering e hevent, hsince⟩
      · rintro ⟨hmemo, htenant, e, t, hmem, hid, hpaid, -, hsince⟩
        refine ⟨e, mem_paidRows.mpr ⟨?_, htenant, t, hmem, hpaid, hsince⟩⟩
        rw [hid]
        exact lookup_key (t := db.obligations) h.distinct hmemo
  have hsum := (hperm.map Obligation.amountPaise).sum_eq
  rw [List.map_map] at hsum
  have hcount := hperm.length_eq
  rw [List.length_map] at hcount
  unfold got
  rw [hids.dedup, List.length_map, ← hcount, ← hsum]
  rfl

/-! ### The events of a call -/

def decided (a : Adjustment) (o : Obligation) (approve : Bool) : Obligation :=
  if approve then Adjustment.apply a o else o

/-- The obligation that the call marks as paid: the tap on its card, or a decision that leaves it paid. -/
def marks (s : State) : Action → Option Id
  | .decideReminder tenantId id .paid _ =>
    (s.db.obligation id).bind fun o =>
      if o.tenantId ≠ tenantId ∨ o.state ≠ .waitingOwnerApproval then none else some o.id
  | c =>
    (decides s c).bind fun d =>
      if (decided d.1 d.2.1 d.2.2).state = .paid then some d.2.1.id else none

/-- **The calls that mark no invoice as paid that an event has marked before.** -/
def Once (s : State) (c : Action) : Prop :=
  ∀ id ∈ marks s c, ∀ e ∈ paidEvents s.db.events, e.obligationId ≠ id

instance (s : State) (c : Action) : Decidable (Once s c) := inferInstanceAs (Decidable (∀ _ ∈ _, _))

theorem paidEvents_append (l l' : List ObligationEvent) : paidEvents (l ++ l') = paidEvents l ++ paidEvents l' :=
  List.filter_append ..

@[simp] theorem paidEvents_concat {l : List ObligationEvent} {e : ObligationEvent} (h : e.toState ≠ .paid) :
    paidEvents (l ++ [e]) = paidEvents l := by
  simp [paidEvents, h]

theorem paidEvents_concat_paid {l : List ObligationEvent} {e : ObligationEvent} (h : e.toState = .paid) :
    paidEvents (l ++ [e]) = paidEvents l ++ [e] := by
  simp [paidEvents, h]

theorem paidEvents_importObligation {tenantId partyId : Id} {now : Time} {r : SheetRow} {db db' : Db}
    (h : importObligation tenantId partyId now r db = some db') : paidEvents db'.events = paidEvents db.events := by
  unfold importObligation at h
  by_cases hamount : r.amountPaise < 0
  · rw [if_pos hamount] at h
    cases h
  rw [if_neg hamount] at h
  split at h
  · cases h
    rfl
  · split_ifs at h
    cases h
    exact paidEvents_concat (by simp)

theorem paidEvents_importAll {tenantId : Id} {now : Time} {rows : List SheetRow} {db db' : Db}
    (h : importAll tenantId now rows db = some db') : paidEvents db'.events = paidEvents db.events := by
  induction rows generalizing db with
  | nil =>
    cases h
    rfl
  | cons r rows ih =>
    unfold importAll at h
    split at h
    · cases h
    · rename_i partyId db₁ hparty
      split at h
      · cases h
      · rename_i db₂ hobligation
        have hbook : db₁.events = db.events := congrArg Book.events (book_importParty hparty)
        rw [ih h, paidEvents_importObligation hobligation, hbook]

theorem paidEvents_importRows {tenantId : Id} {now : Time} {rows : List SheetRow} {db : Db} :
    paidEvents (importRows tenantId now rows db).events = paidEvents db.events := by
  unfold importRows
  cases h : importAll tenantId now rows db with
  | none => rfl
  | some db' => exact paidEvents_importAll h

theorem paidEvents_claimRows {rows : List Obligation} {db : Db} :
    paidEvents (rows.foldl (fun db o => claimRow o db) db).events = paidEvents db.events := by
  induction rows generalizing db with
  | nil => rfl
  | cons o rows ih =>
    rw [List.foldl_cons, ih]
    exact paidEvents_concat (by simp)

theorem paidEvents_transition {id : Id} {fromState toState : ObligationState} {followup : Time} {attempts : ℤ}
    {db : Db} (h : toState ≠ .paid) :
    paidEvents (transition id fromState toState followup attempts db).events = paidEvents db.events := by
  unfold transition
  split
  · rfl
  · split_ifs
    · exact paidEvents_concat h
    · rfl

theorem paidEvents_undoReminder {id : Id} {now : Time} {db : Db} :
    paidEvents (undoReminder id now db).events = paidEvents db.events := by
  unfold undoReminder
  split
  · rfl
  · simp only
    split_ifs
    · exact paidEvents_concat (by simp)
    · rfl

theorem paidEvents_goOn {ok : Bool} {msgId : Option String} {toPhone : String} {now : Time} {db : Db} {j : Job}
    (h : ∀ o, j = .ask o → o.state ≠ .paid) :
    paidEvents (goOn ok msgId toPhone now db j).1.events = paidEvents db.events := by
  cases j with
  | ask o =>
    cases ok with
    | true => rfl
    | false => exact paidEvents_concat (h o rfl)
  | remind o =>
    cases ok with
    | true =>
      have hbook := book_recordMessage o.tenantId .debtorReminder toPhone (some o.id) msgId db
      exact congrArg (fun b => paidEvents b.events) hbook
    | false => exact paidEvents_concat (by simp)
  | remember o =>
    cases ok with
    | true => exact congrArg (fun b => paidEvents b.events) (book_enqueue ..)
    | false => rfl
  | deliver tenantId o =>
    cases ok with
    | true => exact congrArg (fun b => paidEvents b.events) (book_recordMessage ..)
    | false => rfl
  | dispatch id => exact paidEvents_transition (by decide)
  | reject id => exact paidEvents_transition (by decide)
  | undo id => exact paidEvents_undoReminder

theorem paidEvents_decideReminder {quiet : Time → Bool} {tenantId id : Id} {tap : Tap} {now : Time} {db : Db}
    (h : tap ≠ .paid) : paidEvents (decideReminder quiet tenantId id tap now db).1.events = paidEvents db.events := by
  unfold decideReminder
  by_cases hquiet : tap = .send ∧ quiet now
  · rw [if_pos hquiet]
  rw [if_neg hquiet]
  cases hrow : db.obligation id with
  | none => rfl
  | some o =>
    simp only
    split_ifs
    · rfl
    · rfl
    all_goals
      refine paidEvents_concat ?_
      cases tap with
      | paid => exact absurd rfl h
      | _ => simp [Tap.outcome]

/-- **A call that marks no invoice writes no event that says paid.** -/
theorem paidEvents_step {quiet : Time → Bool} {s : State} {c : Action} (hclaims : ∀ o, .ask o ∈ s.jobs → o.state ≠ .paid)
    (hmarks : marks s c = none) : paidEvents (step quiet s c).db.events = paidEvents s.db.events := by
  cases c with
  | importRows tenantId now rows => exact paidEvents_importRows
  | claimDue now limit locked => exact paidEvents_claimRows
  | decideReminder tenantId id tap now =>
    cases tap with
    | paid =>
      show paidEvents (decideReminder quiet tenantId id .paid now s.db).1.events = _
      cases hrow : s.db.obligation id with
      | none => simp [decideReminder, hrow]
      | some o =>
        simp only [marks, hrow, Option.bind_some] at hmarks
        split_ifs at hmarks with hother
        simp [decideReminder, hrow, hother]
    | _ => exact paidEvents_decideReminder (by simp)
  | submitDebtorClaim => exact congrArg (fun b => paidEvents b.events) (book_submitDebtorClaim ..)
  | decideAdjustment tenantId adjustmentId approve now =>
    cases hdecides : decides s (.decideAdjustment tenantId adjustmentId approve now) with
    | none =>
      simp only [step, State.with, decideAdjustment_of_none hdecides]
    | some d =>
      obtain ⟨a, o, approve'⟩ := d
      have hbook := congrArg Book.events (book_decides quiet hdecides).2
      simp only [marks, hdecides, Option.bind_some] at hmarks
      split_ifs at hmarks with hpaid
      exact (congrArg paidEvents hbook).trans (paidEvents_concat hpaid)
  | deliverMessage => rfl
  | onRejected => rfl
  | applyStatus msgId status errorCode => exact congrArg (fun b => paidEvents b.events) (book_applyStatus ..)
  | handleOpt => rfl
  | goOn job ok msgId toPhone now =>
    cases hjob : s.jobs[job]? with
    | none => simp only [step, hjob]
    | some j =>
      rw [step_goOn hjob]
      refine paidEvents_goOn ?_
      rintro o rfl
      exact hclaims o (List.mem_of_getElem? hjob)

/-- **A call that marks an invoice writes one event that says paid**, which leaves the state that the invoice had. -/
theorem paidEvents_marks {quiet : Time → Bool} {s : State} {c : Action} {id : Id} (hmarks : marks s c = some id) :
    ∃ e, paidEvents (step quiet s c).db.events = paidEvents s.db.events ++ [e] ∧
      ∃ o ∈ s.db.obligations, o.id = id ∧ e.obligationId = id ∧ e.fromState = some o.state := by
  have hdecision : ∀ d, decides s c = some d → (decided d.1 d.2.1 d.2.2).state = .paid → d.2.1.id = id →
      ∃ e, paidEvents (step quiet s c).db.events = paidEvents s.db.events ++ [e] ∧
        ∃ o ∈ s.db.obligations, o.id = id ∧ e.obligationId = id ∧ e.fromState = some o.state := by
    rintro ⟨a, o, approve⟩ hdecides hpaid hid
    obtain ⟨hmem, hbook⟩ := book_decides quiet hdecides
    refine ⟨decisionEvent a o approve, ?_, o, hmem, hid, hid, rfl⟩
    exact (congrArg (fun b => paidEvents b.events) hbook).trans (paidEvents_concat_paid hpaid)
  have hother : ∀ d : Option (Adjustment × Obligation × Bool), d = decides s c → (d.bind fun d =>
      if (decided d.1 d.2.1 d.2.2).state = .paid then some d.2.1.id else none) = some id →
        ∃ e, paidEvents (step quiet s c).db.events = paidEvents s.db.events ++ [e] ∧
          ∃ o ∈ s.db.obligations, o.id = id ∧ e.obligationId = id ∧ e.fromState = some o.state := by
    intro d hd h
    obtain ⟨x, rfl, hx⟩ := Option.bind_eq_some_iff.mp h
    split_ifs at hx with hpaid
    exact hdecision x hd.symm hpaid (Option.some.inj hx)
  cases c with
  | decideReminder tenantId obligationId tap now =>
    cases tap with
    | paid =>
      obtain ⟨o, hrow, hif⟩ := Option.bind_eq_some_iff.mp hmarks
      split_ifs at hif with hcard
      obtain ⟨hmem, -⟩ := mem_of_obligation hrow
      refine ⟨⟨o.id, some o.state, .paid, .owner, none⟩, ?_, o, hmem, Option.some.inj hif, Option.some.inj hif, rfl⟩
      show paidEvents (decideReminder quiet tenantId obligationId .paid now s.db).1.events = _
      simp only [decideReminder, hrow, if_neg hcard]
      exact paidEvents_concat_paid rfl
    | _ => exact hother _ rfl hmarks
  | _ => exact hother _ rfl hmarks

/-! ### Runs -/

def Marked (b : Book) : Prop :=
  ∀ o ∈ b.obligations, o.state = .paid → ∃ e ∈ paidEvents b.events, e.obligationId = o.id

/-- **The invariant.** -/
structure Tidy (s : State) : Prop where
  counted : Counted s.db
  marked : Marked (book s.db)
  claims : ∀ o, .ask o ∈ s.jobs → o.state ≠ .paid

theorem mem_paidEvents_append {l l' : List ObligationEvent} {e : ObligationEvent} (h : e ∈ paidEvents l) :
    e ∈ paidEvents (l ++ l') := by
  rw [paidEvents_append]
  exact List.mem_append_left _ h

theorem marked_update {b : Book} {p : Obligation → Prop} [DecidablePred p] {f : Obligation → Obligation}
    {es : List ObligationEvent} (h : Marked b) (hf : ∀ o, (f o).id = o.id)
    (hpaid : ∀ o ∈ b.obligations, p o → (f o).state = .paid →
      o.state = .paid ∨ ∃ e ∈ es, e.toState = .paid ∧ e.obligationId = o.id) :
    Marked ⟨updateWhere p f b.obligations, b.events ++ es⟩ := by
  intro o' ho' hstate
  obtain ⟨o, ho, rfl⟩ := mem_updateWhere.mp ho'
  have hold : o.state = .paid → ∃ e ∈ paidEvents (b.events ++ es), e.obligationId = o.id := by
    intro hwas
    obtain ⟨e, he, hid⟩ := h o ho hwas
    exact ⟨e, mem_paidEvents_append he, hid⟩
  split_ifs at hstate ⊢ with hp
  · rw [hf o]
    rcases hpaid o ho hp hstate with hwas | ⟨e, he, hsays, hid⟩
    · exact hold hwas
    · exact ⟨e, List.mem_filter.mpr ⟨List.mem_append_right _ he, decide_eq_true hsays⟩, hid⟩
  · exact hold hstate

theorem marked_ordinary {b b' : Book} (h : Ordinary b b') (hb : Marked b) : Marked b' := by
  cases h with
  | @create o e hnew he =>
    intro p hp hstate
    rcases List.mem_append.mp hp with hp | hp
    · obtain ⟨e', he', hid⟩ := hb p hp hstate
      exact ⟨e', mem_paidEvents_append he', hid⟩
    · obtain rfl := List.mem_singleton.mp hp
      refine ⟨e, List.mem_filter.mpr ⟨by simp, decide_eq_true (he.2.2.trans hstate)⟩, he.1⟩
  | @amend o f hmem hunpaid hf =>
    rw [← List.append_nil b.events]
    exact marked_update hb (fun q => (hf q).1) fun q hq _ hstate => Or.inl ((hf q).2.symm.trans hstate)
  | @move o f e hmem hunpaid hf he =>
    refine marked_update hb (fun q => (hf q).1) fun q hq hid hstate => Or.inr ⟨e, by simp, ?_, ?_⟩
    · exact (hf q).2.2.symm.trans hstate
    · exact he.1.trans hid.symm

theorem marked_ordinaries {b b' : Book} (h : ReflTransGen Ordinary b b') (hb : Marked b) : Marked b' := by
  induction h with
  | refl => exact hb
  | tail _ h ih => exact marked_ordinary h ih

theorem marked_step {quiet : Time → Bool} {s : State} {c : Action} (h : Tidy s) :
    Marked (book (step quiet s c).db) := by
  cases hdecides : decides s c with
  | some x =>
    obtain ⟨a, o, approve⟩ := x
    obtain ⟨hmem, hbook⟩ := book_decides quiet hdecides
    rw [hbook]
    refine marked_update h.marked (id_change a approve) fun q hq hid hstate => Or.inr ⟨_, List.mem_singleton_self _, ?_⟩
    obtain rfl : q = o := Keyed.eq_of_key h.counted.distinct hq hmem hid
    exact ⟨hstate, rfl⟩
  | none =>
    cases hrollsBack : rollsBack s c with
    | some o =>
      obtain ⟨now, hbook⟩ := book_rollsBack quiet hrollsBack
      rw [hbook]
      exact marked_update h.marked (fun q => by rfl) fun q hq hid hstate => by cases hstate
    | none =>
      cases hreleases : releases s c with
      | some o =>
        obtain ⟨now, hbook⟩ := book_releases quiet hreleases
        rw [hbook]
        have hclaim : o.state ≠ .paid := by
          obtain ⟨job, msgId, toPhone, now', rfl, hjob⟩ := jobOf_eq (jobOf_releases hreleases)
          exact h.claims o (List.mem_of_getElem? hjob)
        exact marked_update (b := book s.db) h.marked (fun q => by rfl) fun q hq hid hstate => absurd hstate hclaim
      | none =>
        cases hdeclines : declines quiet s c with
        | some o =>
          obtain ⟨-, -, now, hbook⟩ := book_declines hdeclines
          rw [hbook, ← List.append_nil s.db.events]
          exact marked_update (b := book s.db) h.marked (fun q => by rfl) fun q hq hid hstate => by cases hstate
        | none =>
          exact marked_ordinaries (step_ordinary h.counted.distinct hdecides hreleases hrollsBack hdeclines) h.marked

theorem counted_step {quiet : Time → Bool} {s : State} {c : Action} (h : Tidy s) (hc : Once s c) :
    Counted (step quiet s c).db := by
  refine ⟨distinct_step h.counted.distinct, ?_, ?_⟩
  · cases hmarks : marks s c with
    | none =>
      rw [paidEvents_step h.claims hmarks]
      exact h.counted.once
    | some id =>
      obtain ⟨e, hevents, o, ho, hid, he, hfrom⟩ := @paidEvents_marks quiet s c id hmarks
      rw [hevents, List.map_append, List.nodup_append]
      refine ⟨h.counted.once, List.nodup_singleton _, ?_⟩
      intro id₁ h₁ id₂ h₂
      obtain ⟨e', he', rfl⟩ := List.mem_map.mp h₁
      rw [List.mem_singleton.mp h₂, he]
      exact hc id hmarks e' he'
  · cases hmarks : marks s c with
    | none =>
      rw [paidEvents_step h.claims hmarks]
      exact h.counted.entering
    | some id =>
      obtain ⟨e, hevents, o, ho, hid, he, hfrom⟩ := @paidEvents_marks quiet s c id hmarks
      rw [hevents]
      intro e' he'
      rcases List.mem_append.mp he' with he' | he'
      · exact h.counted.entering e' he'
      · obtain rfl := List.mem_singleton.mp he'
        intro hwas
        -- the invoice was paid, so that an event had marked it
        have hpaid : o.state = .paid := Option.some.inj (hfrom.symm.trans hwas)
        obtain ⟨e', he', hid'⟩ := h.marked o ho hpaid
        exact hc id hmarks e' he' (hid'.trans hid)

theorem tidy_step {quiet : Time → Bool} {s : State} {c : Action} (h : Tidy s) (hc : Once s c) :
    Tidy (step quiet s c) := by
  refine ⟨counted_step h hc, marked_step h, fun o ho => ?_⟩
  rcases mem_jobs_step ho (Or.inl rfl) with hold | hnew
  · exact h.claims o hold
  · exact hnew.2 rfl

theorem tidy_init : Tidy {} := by
  refine ⟨⟨List.nodup_nil, List.nodup_nil, ?_⟩, ?_, ?_⟩
  · intro e he
    cases he
  · intro o ho
    cases ho
  · intro o ho
    cases ho

/-- **The report counts each invoice once**, after every call of a run that marks no invoice as paid twice. -/
theorem collected_once (quiet : Time → Bool) (cs : List Action) (h : Along (step quiet) Once {} cs) :
    ∀ pre post, cs = pre ++ post → Right (run (step quiet) {} pre).db := by
  rintro pre post rfl
  exact right_of_counted (inv_run (fun s c hs hc => tidy_step hs hc) tidy_init (along_append.mp h).1).counted

/-- An invoice of two rupees, which the owner is asked about. -/
def asked : List Action :=
  let row : SheetRow := {
    party := "Ravi Traders", phone := "919800000001", invoiceRef := "INV-1", amountPaise := 200, dueDate := 10
    partyId := "party", obligationId := "invoice" }
  [.importRows "shop" 0 [row], .claimDue (days 11) 20 []]

/-- The owner taps paid. -/
theorem collected_once_tap : Right (run (step fun _ => false) {} (asked ++ [.decideReminder "shop" "invoice" .paid
    (days 12)])).db :=
  collected_once (fun _ => false) (asked ++ [.decideReminder "shop" "invoice" .paid (days 12)])
    (by decide_cbv) _ [] (List.append_nil _).symm

/-- The customer has sent a proof of the payment, and the owner taps paid and accepts the proof. -/
def acceptedToo : List Action :=
  asked ++ [
    .submitDebtorClaim "shop" "party" "invoice" "wa_1" .utrProof "paid by UPI" none none "proof" (days 11),
    .decideReminder "shop" "invoice" .paid (days 12), .decideAdjustment "shop" "proof" true (days 12)]

/-- The amount is counted twice. -/
theorem amount_twice : ¬ ∀ (quiet : Time → Bool) (cs : List Action), Right (run (step quiet) {} cs).db := by
  intro h
  have hright := h (fun _ => false) acceptedToo "shop" 0 [days 10, days 11, days 12, days 12] (by decide_cbv)
  revert hright
  decide_cbv

end Smara.Server.Collected
