import Mathlib
import Smara.Lib.Trail
import Smara.Server.Writes

/-! # The history of an invoice

The events of an invoice are to tell its history: the first enters from nothing, each of the others leaves
the state that the one before has entered, and the last has entered the state that the invoice has.

* `Faithful`: the events of every obligation are a trail to its state.
* `Tells`: the calls whose event says what they write.
* `history_iff`: the history is faithful throughout a run exactly when every call tells. -/

namespace Smara.Server.History

open Lib.Machine Lib.Table Lib.Trail
open Server.Schema Server.Ledger Server.Writes
open TaskStore.Schema (Time seconds)
open Relation (ReflTransGen)

def movesOf (id : Id) (events : List ObligationEvent) : List (Option ObligationState × ObligationState) :=
  (events.filter fun e => e.obligationId = id).map fun e => (e.fromState, e.toState)

/-- **The events of every obligation are its history.** -/
def Faithful (b : Book) : Prop := ∀ o ∈ b.obligations, Trail none (movesOf o.id b.events) (some o.state)

instance (b : Book) : Decidable (Faithful b) := inferInstanceAs (Decidable (∀ _ ∈ _, _))

/-- **The calls whose event says what they write**: a claim is released while its invoice still waits for the
owner, a reminder is undone while its invoice is dispatched, and the owner does not tap send for a party that
has said stop. -/
def Tells (quiet : Time → Bool) (s : State) (c : Action) : Prop :=
  (∀ o ∈ releases s c, ∀ p ∈ s.db.obligations, p.id = o.id → p.state = .waitingOwnerApproval) ∧
    (∀ o ∈ rollsBack s c, ∀ p ∈ s.db.obligations, p.id = o.id → p.state = .dispatched) ∧
      declines quiet s c = none

/-! ### Events -/

theorem movesOf_append (id : Id) (l l' : List ObligationEvent) :
    movesOf id (l ++ l') = movesOf id l ++ movesOf id l' := by
  simp [movesOf]

theorem movesOf_other {id : Id} {e : ObligationEvent} (h : e.obligationId ≠ id) : movesOf id [e] = [] := by
  simp [movesOf, h]

theorem movesOf_own {id : Id} {e : ObligationEvent} (h : e.obligationId = id) :
    movesOf id [e] = [(e.fromState, e.toState)] := by
  simp [movesOf, h]

def Sound (b : Book) : Prop := Distinct b ∧ ∀ e ∈ b.events, ∃ o ∈ b.obligations, o.id = e.obligationId

theorem movesOf_new {b : Book} (h : Sound b) {id : Id} (hnew : ∀ p ∈ b.obligations, p.id ≠ id) :
    movesOf id b.events = [] := by
  simp only [movesOf, List.map_eq_nil_iff, List.filter_eq_nil_iff, decide_eq_true_eq]
  intro e he heq
  obtain ⟨o, ho, hid⟩ := h.2 e he
  exact hnew o ho (hid.trans heq)

/-! ### Updates -/

section Update
variable {b : Book} {p : Obligation → Prop} [DecidablePred p] {f : Obligation → Obligation}
  {e : ObligationEvent}

theorem sound_update (h : Sound b) (hf : ∀ o, (f o).id = o.id) {es : List ObligationEvent}
    (hes : ∀ e ∈ es, ∃ o ∈ b.obligations, o.id = e.obligationId) :
    Sound ⟨updateWhere p f b.obligations, b.events ++ es⟩ := by
  refine ⟨(keyed_updateWhere fun o _ => hf o).mpr h.1, fun e he => ?_⟩
  have hold : ∃ o ∈ b.obligations, o.id = e.obligationId := by
    rcases List.mem_append.mp he with he | he
    · exact h.2 e he
    · exact hes e he
  obtain ⟨o, ho, hid⟩ := hold
  refine ⟨if p o then f o else o, mem_updateWhere.mpr ⟨o, ho, rfl⟩, ?_⟩
  split_ifs
  · rw [hf o, hid]
  · exact hid

theorem faithful_write_iff {o : Obligation} (hb : Faithful b) (hd : Distinct b) (hmem : o ∈ b.obligations)
    (hf : ∀ q, (f q).id = q.id) (he : e.obligationId = o.id) :
    Faithful (b.write o.id f e) ↔ e.fromState = some o.state ∧ e.toState = (f o).state := by
  constructor
  · intro h
    have hrow : f o ∈ (b.write o.id f e).obligations := mem_updateWhere.mpr ⟨o, hmem, if_pos rfl⟩
    have htrail := h (f o) hrow
    simp only [Book.write, hf, movesOf_append, movesOf_own he] at htrail
    obtain ⟨hfrom, hto⟩ := trail_snoc.mp htrail
    exact ⟨hfrom.unique (hb o hmem), Option.some.inj hto⟩
  · rintro ⟨hfrom, hto⟩ q hq
    obtain ⟨r, hr, rfl⟩ := mem_updateWhere.mp hq
    simp only [Book.write, movesOf_append]
    split_ifs with hkey
    · obtain rfl := Keyed.eq_of_key hd hr hmem hkey
      rw [hf, movesOf_own he]
      refine trail_snoc.mpr ⟨?_, by rw [hto]⟩
      rw [hfrom]
      exact hb r hr
    · rw [movesOf_other (by rw [he]; exact fun h => hkey h.symm), List.append_nil]
      exact hb r hr

end Update

theorem sound_ordinary {b b' : Book} (h : Ordinary b b') (hs : Sound b) : Sound b' := by
  refine ⟨distinct_ordinary h hs.1, ?_⟩
  cases h with
  | @create o e hnew he =>
    intro e' he'
    rcases List.mem_append.mp he' with he' | he'
    · obtain ⟨p, hp, hid⟩ := hs.2 e' he'
      exact ⟨p, List.mem_append_left _ hp, hid⟩
    · rw [List.mem_singleton.mp he']
      exact ⟨o, by simp, he.1.symm⟩
  | @amend o f hmem hunpaid hf =>
    have h := sound_update (p := fun q => q.id = o.id) hs (fun q => (hf q).1) (List.forall_mem_nil _)
    rw [List.append_nil] at h
    exact h.2
  | @move o f e hmem hunpaid hf he =>
    refine (sound_update hs (fun q => (hf q).1) fun e' he' => ?_).2
    rw [List.mem_singleton.mp he']
    exact ⟨o, hmem, he.1.symm⟩

theorem faithful_ordinary {b b' : Book} (h : Ordinary b b') (hs : Sound b) (hb : Faithful b) :
    Faithful b' := by
  cases h with
  | @create o e hnew he =>
    intro p hp
    rcases List.mem_append.mp hp with hp | hp
    · simp only [movesOf_append]
      rw [movesOf_other (by rw [he.1]; exact fun h => hnew p hp h.symm), List.append_nil]
      exact hb p hp
    · rw [List.mem_singleton.mp hp]
      simp only [movesOf_append, movesOf_new hs hnew, movesOf_own he.1, he.2.1, he.2.2]
      exact ⟨rfl, rfl⟩
  | amend hmem hunpaid hf =>
    intro p hp
    obtain ⟨q, hq, rfl⟩ := mem_updateWhere.mp hp
    split_ifs
    · rw [(hf q).1, (hf q).2]
      exact hb q hq
    · exact hb q hq
  | move hmem hunpaid hf he =>
    exact (faithful_write_iff hb hs.1 hmem (fun q => (hf q).1) he.1).mpr ⟨he.2, (hf _).2.2.symm⟩

theorem faithful_ordinaries {b b' : Book} (h : ReflTransGen Ordinary b b') (hs : Sound b) (hb : Faithful b) :
    Sound b' ∧ Faithful b' := by
  induction h with
  | refl => exact ⟨hs, hb⟩
  | tail _ h ih => exact ⟨sound_ordinary h ih.1, faithful_ordinary h ih.1 ih.2⟩

/-! ### Calls -/

def JobsKnown (s : State) : Prop :=
  ∀ j ∈ s.jobs, ∀ o, j = .ask o ∨ j = .remind o → ∃ p ∈ s.db.obligations, p.id = o.id

def Grown (b b' : Book) : Prop := ∀ p ∈ b.obligations, ∃ p' ∈ b'.obligations, p'.id = p.id

theorem grown_update {b : Book} {p : Obligation → Prop} [DecidablePred p] {f : Obligation → Obligation}
    {events : List ObligationEvent} (hf : ∀ o, (f o).id = o.id) :
    Grown b ⟨updateWhere p f b.obligations, events⟩ := by
  intro o ho
  refine ⟨if p o then f o else o, mem_updateWhere.mpr ⟨o, ho, rfl⟩, ?_⟩
  split_ifs
  · exact hf o
  · rfl

theorem grown_ordinary {b b' : Book} (h : Ordinary b b') : Grown b b' := by
  cases h with
  | create hnew he => exact fun p hp => ⟨p, List.mem_append_left _ hp, rfl⟩
  | amend hmem hunpaid hf => exact grown_update fun q => (hf q).1
  | move hmem hunpaid hf he => exact grown_update fun q => (hf q).1

theorem grown_ordinaries {b b' : Book} (h : ReflTransGen Ordinary b b') : Grown b b' := by
  induction h with
  | refl => exact fun p hp => ⟨p, hp, rfl⟩
  | tail _ h ih =>
    intro p hp
    obtain ⟨p', hp', hid⟩ := ih p hp
    obtain ⟨p'', hp'', hid'⟩ := grown_ordinary h p' hp'
    exact ⟨p'', hp'', hid'.trans hid⟩

theorem id_change (a : Adjustment) (approve : Bool) (p : Obligation) :
    (if approve then Adjustment.apply a p else p).id = p.id := by
  split_ifs
  · exact id_apply a p
  · rfl

theorem grown_step {quiet : Time → Bool} {s : State} {c : Action} (hd : Distinct (book s.db)) :
    Grown (book s.db) (book (step quiet s c).db) := by
  cases hdecides : decides s c with
  | some x =>
    obtain ⟨a, o, approve⟩ := x
    rw [(book_decides quiet hdecides).2]
    exact grown_update (id_change a approve)
  | none =>
    cases hrollsBack : rollsBack s c with
    | some o =>
      obtain ⟨now, hbook⟩ := book_rollsBack quiet hrollsBack
      rw [hbook]
      exact grown_update fun p => by rfl
    | none =>
      cases hreleases : releases s c with
      | some o =>
        obtain ⟨now, hbook⟩ := book_releases quiet hreleases
        rw [hbook]
        exact grown_update (b := book s.db) fun p => by rfl
      | none =>
        cases hdeclines : declines quiet s c with
        | some o =>
          obtain ⟨-, -, now, hbook⟩ := book_declines hdeclines
          rw [hbook]
          exact grown_update (b := book s.db) fun p => by rfl
        | none => exact grown_ordinaries (step_ordinary hd hdecides hreleases hrollsBack hdeclines)

theorem jobs_decideReminder {quiet : Time → Bool} {tenantId id : Id} {tap : Tap} {now : Time} {db : Db} {j : Job}
    (h : j ∈ (decideReminder quiet tenantId id tap now db).2) : ∃ p ∈ db.obligations, j = .remind p := by
  unfold decideReminder at h
  by_cases hquiet : tap = .send ∧ quiet now
  · rw [if_pos hquiet] at h
    cases h
  rw [if_neg hquiet] at h
  cases hrow : db.obligation id with
  | none =>
    rw [hrow] at h
    cases h
  | some p =>
    rw [hrow] at h
    refine ⟨p, (mem_of_obligation hrow).1, ?_⟩
    simp only at h
    split_ifs at h
    · cases h
    · cases h
    · exact List.mem_singleton.mp h
    · cases h

theorem mem_jobs_step {quiet : Time → Bool} {s : State} {c : Action} {j : Job} {o : Obligation}
    (hj : j ∈ (step quiet s c).jobs) (ho : j = .ask o ∨ j = .remind o) :
    j ∈ s.jobs ∨ o ∈ s.db.obligations ∧ (j = .ask o → o.state ≠ .paid) := by
  cases c with
  | claimDue now limit locked =>
    rcases List.mem_append.mp hj with hj | hj
    · exact Or.inl hj
    · obtain ⟨o', ho', rfl⟩ := List.mem_map.mp hj
      rcases ho with heq | heq
      · cases heq
        obtain ⟨hmem, ⟨hstate, -⟩, -⟩ := mem_dueRows ho'
        refine Or.inr ⟨hmem, fun _ hpaid => ?_⟩
        simp [hpaid] at hstate
      · cases heq
  | decideReminder tenantId id tap now =>
    rcases List.mem_append.mp hj with hj | hj
    · exact Or.inl hj
    · obtain ⟨p, hp, rfl⟩ := jobs_decideReminder hj
      rcases ho with heq | heq
      · cases heq
      · cases heq
        exact Or.inr ⟨hp, nofun⟩
  | deliverMessage tenantId obligationId =>
    rcases List.mem_append.mp hj with hj | hj
    · exact Or.inl hj
    · rw [List.mem_singleton.mp hj] at ho
      simp at ho
  | onRejected tenantId obligationId =>
    rcases List.mem_append.mp hj with hj | hj
    · exact Or.inl hj
    · obtain ⟨o', ho', rfl⟩ := List.mem_map.mp hj
      simp at ho
  | applyStatus msgId status errorCode =>
    rcases List.mem_append.mp hj with hj | hj
    · exact Or.inl hj
    · have hundo : ∃ id, j = .undo id := by
        revert hj
        unfold applyStatus applyFailed
        split_ifs
        · split
          · simp
          · split_ifs
            all_goals simp
            intro id _ heq
            exact ⟨id, heq.symm⟩
        · simp
      obtain ⟨id, rfl⟩ := hundo
      simp at ho
  | goOn job ok msgId toPhone now =>
    cases hjob : s.jobs[job]? with
    | none =>
      simp only [step, hjob] at hj
      exact Or.inl hj
    | some j' =>
      simp only [step, hjob] at hj
      rcases List.mem_append.mp hj with hj | hj
      · exact Or.inl (List.mem_of_mem_eraseIdx hj)
      · rcases ho with rfl | rfl
        all_goals
          cases j'
          all_goals
            simp only [goOn] at hj
            try split_ifs at hj
          all_goals simp at hj
  | _ =>
    simp only [step, State.with, List.append_nil] at hj
    exact Or.inl hj

theorem jobsKnown_step {quiet : Time → Bool} {s : State} {c : Action} (hd : Distinct (book s.db))
    (h : JobsKnown s) : JobsKnown (step quiet s c) := by
  intro j hj o ho
  have hold : ∃ p ∈ s.db.obligations, p.id = o.id := by
    rcases mem_jobs_step hj ho with hj | hnew
    · exact h j hj o ho
    · exact ⟨o, hnew.1, rfl⟩
  obtain ⟨p, hp, hid⟩ := hold
  obtain ⟨p', hp', hid'⟩ := grown_step (c := c) hd p hp
  exact ⟨p', hp', hid'.trans hid⟩

/-- **The invariant**: the history up to now is faithful, and what is still to be done is about it. -/
structure Told (s : State) : Prop where
  sound : Sound (book s.db)
  faithful : Faithful (book s.db)
  known : JobsKnown s

theorem row_of_job {s : State} {c : Action} {j : Job} {ok : Bool} {o : Obligation} (h : JobsKnown s)
    (hjob : jobOf s c = some (j, ok)) (ho : j = .ask o ∨ j = .remind o) :
    ∃ p ∈ s.db.obligations, p.id = o.id := by
  obtain ⟨job, msgId, toPhone, now, rfl, hj⟩ := jobOf_eq hjob
  exact h j (List.mem_of_getElem? hj) o ho

theorem jobOf_releases {s : State} {c : Action} {o : Obligation} (h : releases s c = some o) :
    jobOf s c = some (.ask o, false) := by
  unfold releases at h
  split at h
  · cases h
    assumption
  · cases h

theorem jobOf_rollsBack {s : State} {c : Action} {o : Obligation} (h : rollsBack s c = some o) :
    jobOf s c = some (.remind o, false) := by
  unfold rollsBack at h
  split at h
  · cases h
    assumption
  · cases h

theorem forall_row {l : List Obligation} (hd : Keyed Obligation.id l) {p : Obligation} (hp : p ∈ l) {id : Id}
    (hid : p.id = id) {P : Obligation → Prop} : (∀ q ∈ l, q.id = id → P q) ↔ P p := by
  constructor
  · intro h
    exact h p hp hid
  · intro h q hq hqid
    rwa [Keyed.eq_of_key hd hq hp (hqid.trans hid.symm)]

theorem faithful_rollsBack_iff {quiet : Time → Bool} {s : State} {c : Action} {o : Obligation} (h : Told s)
    (hc : rollsBack s c = some o) : Faithful (book (step quiet s c).db) ↔
      ∀ p ∈ s.db.obligations, p.id = o.id → p.state = .dispatched := by
  obtain ⟨p, hp, hid⟩ := row_of_job h.known (jobOf_rollsBack hc) (Or.inr rfl)
  have hd : Keyed Obligation.id s.db.obligations := h.sound.1
  obtain ⟨now, hbook⟩ := book_rollsBack quiet hc
  rw [hbook, forall_row hd hp hid (P := fun p => p.state = .dispatched), ← hid,
    faithful_write_iff h.faithful h.sound.1 hp (fun q => by rfl) rfl]
  simp [eq_comm]

theorem faithful_releases_iff {quiet : Time → Bool} {s : State} {c : Action} {o : Obligation} (h : Told s)
    (hc : releases s c = some o) : Faithful (book (step quiet s c).db) ↔
      ∀ p ∈ s.db.obligations, p.id = o.id → p.state = .waitingOwnerApproval := by
  obtain ⟨p, hp, hid⟩ := row_of_job h.known (jobOf_releases hc) (Or.inl rfl)
  have hd : Keyed Obligation.id s.db.obligations := h.sound.1
  obtain ⟨now, hbook⟩ := book_releases quiet hc
  rw [hbook, forall_row hd hp hid (P := fun p => p.state = .waitingOwnerApproval), ← hid]
  by_cases hwaits : p.state = .waitingOwnerApproval
  · rw [updateWhere_key_and hd hp (q := fun q => q.state = .waitingOwnerApproval) hwaits]
    refine iff_of_true ?_ hwaits
    refine (faithful_write_iff h.faithful h.sound.1 hp (fun q => by rfl) rfl).mpr ⟨?_, rfl⟩
    rw [hwaits]
  · refine iff_of_false (fun hnew => hwaits ?_) hwaits
    -- The row is not changed, but the event says that it was.
    have hrow : p ∈ updateWhere (fun q => q.id = p.id ∧ q.state = .waitingOwnerApproval)
        (fun q => { q with state := o.state, nextFollowupAt := some (now + minutes 10) }) s.db.obligations :=
      mem_updateWhere.mpr ⟨p, hp, if_neg fun hboth => hwaits hboth.2⟩
    have htrail := hnew p hrow
    have hown := movesOf_own (e := ⟨p.id, some .waitingOwnerApproval, o.state, .systemCron, none⟩) rfl
    rw [movesOf_append, hown] at htrail
    have hfrom := (trail_snoc.mp htrail).1.unique (h.faithful p hp)
    exact (Option.some.inj hfrom).symm

theorem not_faithful_declines {quiet : Time → Bool} {s : State} {c : Action} {o : Obligation} (h : Told s)
    (hc : declines quiet s c = some o) : ¬ Faithful (book (step quiet s c).db) := by
  obtain ⟨hmem, hwaits, now, hbook⟩ := book_declines hc
  rw [hbook]
  intro hnew
  have htrail := hnew _ (mem_updateWhere.mpr ⟨o, hmem, if_pos rfl⟩)
  have hstate := htrail.unique (h.faithful o hmem)
  rw [hwaits] at hstate
  cases hstate

theorem faithful_decides {quiet : Time → Bool} {s : State} {c : Action} {a : Adjustment} {o : Obligation}
    {approve : Bool} (h : Told s) (hc : decides s c = some (a, o, approve)) :
    Faithful (book (step quiet s c).db) := by
  obtain ⟨hmem, hbook⟩ := book_decides quiet hc
  rw [hbook]
  refine (faithful_write_iff h.faithful h.sound.1 hmem (id_change a approve) rfl).mpr ⟨rfl, ?_⟩
  rfl

theorem faithful_step_iff {quiet : Time → Bool} {s : State} {c : Action} (h : Told s) :
    Faithful (book (step quiet s c).db) ↔ Tells quiet s c := by
  cases hrollsBack : rollsBack s c with
  | some o =>
    have hjob := jobOf_rollsBack hrollsBack
    have hreleases : releases s c = none := by simp [releases, hjob]
    have hdeclines : declines quiet s c = none := by
      obtain ⟨job, msgId, toPhone, now, rfl, -⟩ := jobOf_eq hjob
      rfl
    rw [faithful_rollsBack_iff h hrollsBack]
    simp [Tells, hrollsBack, hreleases, hdeclines]
  | none =>
    cases hreleases : releases s c with
    | some o =>
      have hdeclines : declines quiet s c = none := by
        obtain ⟨job, msgId, toPhone, now, rfl, -⟩ := jobOf_eq (jobOf_releases hreleases)
        rfl
      rw [faithful_releases_iff h hreleases]
      simp [Tells, hrollsBack, hreleases, hdeclines]
    | none =>
      cases hdeclines : declines quiet s c with
      | some o =>
        refine iff_of_false (not_faithful_declines h hdeclines) ?_
        simp [Tells, hdeclines]
      | none =>
        refine iff_of_true ?_ (by simp [Tells, hrollsBack, hreleases, hdeclines])
        cases hdecides : decides s c with
        | some x => exact faithful_decides h hdecides
        | none =>
          have hwrites := step_ordinary h.sound.1 hdecides hreleases hrollsBack hdeclines
          exact (faithful_ordinaries hwrites h.sound h.faithful).2

theorem sound_step {quiet : Time → Bool} {s : State} {c : Action} (h : Told s) :
    Sound (book (step quiet s c).db) := by
  cases hdecides : decides s c with
  | some x =>
    obtain ⟨a, o, approve⟩ := x
    obtain ⟨hmem, hbook⟩ := book_decides quiet hdecides
    rw [hbook]
    refine sound_update h.sound (id_change a approve) fun e he => ?_
    rw [List.mem_singleton.mp he]
    exact ⟨o, hmem, rfl⟩
  | none =>
    cases hrollsBack : rollsBack s c with
    | some o =>
      obtain ⟨p, hp, hid⟩ := row_of_job h.known (jobOf_rollsBack hrollsBack) (Or.inr rfl)
      obtain ⟨now, hbook⟩ := book_rollsBack quiet hrollsBack
      rw [hbook]
      refine sound_update h.sound (fun q => by rfl) fun e he => ?_
      rw [List.mem_singleton.mp he]
      exact ⟨p, hp, hid⟩
    | none =>
      cases hreleases : releases s c with
      | some o =>
        obtain ⟨p, hp, hid⟩ := row_of_job h.known (jobOf_releases hreleases) (Or.inl rfl)
        obtain ⟨now, hbook⟩ := book_releases quiet hreleases
        rw [hbook]
        refine sound_update h.sound (fun q => by rfl) fun e he => ?_
        rw [List.mem_singleton.mp he]
        exact ⟨p, hp, hid⟩
      | none =>
        cases hdeclines : declines quiet s c with
        | some o =>
          obtain ⟨-, -, now, hbook⟩ := book_declines hdeclines
          rw [hbook, ← List.append_nil s.db.events]
          exact sound_update h.sound (fun q => by rfl) (by simp)
        | none =>
          have hwrites := step_ordinary h.sound.1 hdecides hreleases hrollsBack hdeclines
          exact (faithful_ordinaries hwrites h.sound h.faithful).1

theorem told_step {quiet : Time → Bool} {s : State} {c : Action} (h : Told s) (hc : Tells quiet s c) :
    Told (step quiet s c) :=
  ⟨sound_step h, (faithful_step_iff h).mpr hc, jobsKnown_step h.sound.1 h.known⟩

theorem told_init : Told {} := by
  refine ⟨⟨List.nodup_nil, ?_⟩, ?_, ?_⟩
  · intro e he
    cases he
  · intro o ho
    cases ho
  · intro j hj
    cases hj

/-- **When the events are the history.** In every state of a run of calls, in any order and with any sends
that fail, the events of every obligation are its history, exactly when each call tells what it writes. -/
theorem history_iff (quiet : Time → Bool) (cs : List Action) :
    (∀ pre post, cs = pre ++ post → Faithful (book (run (step quiet) {} pre).db)) ↔
      Along (step quiet) (Tells quiet) {} cs := by
  refine (prefixes_iff (R := fun s : State => Faithful (book s.db))).trans ?_
  rw [and_iff_right told_init.faithful]
  exact along_iff_of_inv (fun s c h hc => told_step h hc) (fun s c h => faithful_step_iff h) told_init

/-- The owner taps send for a customer that has said stop since the card was sent. -/
def tappedAfterStop : List Action :=
  let row : SheetRow := {
    party := "Ravi Traders", phone := "919800000001", invoiceRef := "INV-1", amountPaise := 500000, dueDate := 10
    partyId := "party", obligationId := "invoice" }
  [.importRows "shop" 0 [row], .claimDue (days 11) 20 [], .handleOpt "919800000001" none true (days 11),
    .decideReminder "shop" "invoice" .send (days 12)]

/-- The invoice is snoozed, and its last event says that it waits for the owner. -/
theorem snoozed_untold : ¬ ∀ (quiet : Time → Bool) (cs pre post : List Action), cs = pre ++ post →
    Faithful (book (run (step quiet) {} pre).db) := by
  intro h
  have hfaithful := h (fun _ => false) tappedAfterStop tappedAfterStop [] (by simp)
  revert hfaithful
  decide_cbv

end Smara.Server.History
