import Smara.Goals.Leases

/-! # Approvals

A worker asks for an approval with `pending` and takes the answer with `consumeResponse`; the user
answers with `respond`. A request belongs to the lease of the cycle that made it.

* `Sound`: a goal waits for an approval exactly while a request of its lease is open.
* `approvals_valid`: an answer is delivered at most once, to the cycle that has asked and while it holds
  its goal. -/

namespace Smara.Goals.Approvals

open Lib.Machine Lib.Table Lib.Transaction
open TaskStore.Schema (Uuid Time seconds)
open Goals.Schema Goals.Schema.GoalDb Goals.Spec Goals.Actions
open Goals.Cycles Goals.Runs Goals.Effects Goals.Leases

variable {workspaceKey : String → String} {db db' : GoalDb} {uuids : Uuids} {w : World}
  {op : Op workspaceKey} {r : Except Err Reply} {goal : Snapshot} {requestId : Uuid}

/-! ### The state of a goal and its requests -/

structure Sound (requests : List Request) (g : Goal) : Prop where
  awaiting : g.state = .awaitingApproval → ∃ r ∈ requests, g.lease = some r.lease ∧ r.Open
  running : g.state = .running →
    ∃ lease, g.lease = some lease ∧ ∀ r ∈ requests, r.lease = lease → ¬ r.Open

def AllSound (db : GoalDb) : Prop := ∀ g ∈ db.goals, Sound db.goalRequests g

theorem sound_of_state {requests : List Request} {g : Goal} (s : GoalState) (h : ¬ s.Active)
    (he : g.state = s) : Sound requests g :=
  ⟨fun hs => absurd (Or.inr (he.symm.trans hs)) h, fun hs => absurd (Or.inl (he.symm.trans hs)) h⟩

theorem Sound.same {requests : List Request} {g g' : Goal} (h : Sound requests g)
    (hs : g'.state = g.state) (hl : g'.lease = g.lease) : Sound requests g' := by
  constructor
  · rw [hs, hl]
    exact h.awaiting
  · rw [hs, hl]
    exact h.running

theorem Sound.idle_of_free {requests : List Request} {g : Goal} (h : Sound requests g)
    (hl : g.lease = none) : ¬ g.state.Active := by
  rintro (hs | hs)
  · obtain ⟨lease, hl', -⟩ := h.running hs
    rw [hl] at hl'
    cases hl'
  · obtain ⟨r, -, hl', -⟩ := h.awaiting hs
    rw [hl] at hl'
    cases hl'

theorem Sound.of_open {requests requests' : List Request} {g : Goal} (h : Sound requests g)
    (ho : ∀ lease, g.lease = some lease → ((∃ r ∈ requests', r.lease = lease ∧ r.Open) ↔
      ∃ r ∈ requests, r.lease = lease ∧ r.Open)) : Sound requests' g := by
  refine ⟨fun hs => ?_, fun hs => ?_⟩
  · obtain ⟨r, hr, hl, hopen⟩ := h.awaiting hs
    obtain ⟨r', hr', hl', hopen'⟩ := (ho _ hl).mpr ⟨r, hr, rfl, hopen⟩
    exact ⟨r', hr', hl.trans (congrArg some hl'.symm), hopen'⟩
  · obtain ⟨lease, hl, hnone⟩ := h.running hs
    refine ⟨lease, hl, fun r hr hlease hopen => ?_⟩
    obtain ⟨r', hr', hl', hopen'⟩ := (ho lease hl).mp ⟨r, hr, hlease, hopen⟩
    exact hnone r' hr' hl' hopen'

theorem allSound_update {p : Goal → Prop} [DecidablePred p] {f : Goal → Goal} (h : AllSound db)
    (he : db'.goals = updateWhere p f db.goals) (hr : db'.goalRequests = db.goalRequests)
    (hf : ∀ g ∈ db.goals, p g → Sound db.goalRequests (f g)) : AllSound db' := by
  intro g' hg'
  rw [he] at hg'
  rw [hr]
  obtain ⟨g, hg, rfl⟩ := mem_updateWhere.mp hg'
  by_cases hp : p g
  · rw [if_pos hp]
    exact hf g hg hp
  · rw [if_neg hp]
    exact h g hg

theorem open_update {p : Request → Prop} [DecidablePred p] {f : Request → Request}
    {requests : List Request} {lease : Uuid}
    (hl : ∀ r, (f r).lease = r.lease)
    (hf : ∀ r ∈ requests, p r → r.lease = lease → ((f r).Open ↔ r.Open)) :
    (∃ r ∈ updateWhere p f requests, r.lease = lease ∧ r.Open) ↔
      ∃ r ∈ requests, r.lease = lease ∧ r.Open := by
  constructor
  · rintro ⟨r', hr', hlease, hopen⟩
    obtain ⟨r, hr, rfl⟩ := mem_updateWhere.mp hr'
    by_cases hp : p r
    · rw [if_pos hp] at hlease hopen
      rw [hl] at hlease
      exact ⟨r, hr, hlease, (hf r hr hp hlease).mp hopen⟩
    · rw [if_neg hp] at hlease hopen
      exact ⟨r, hr, hlease, hopen⟩
  · rintro ⟨r, hr, hlease, hopen⟩
    refine ⟨_, mem_updateWhere.mpr ⟨r, hr, rfl⟩, ?_⟩
    by_cases hp : p r
    · rw [if_pos hp]
      exact ⟨(hl r).trans hlease, (hf r hr hp hlease).mpr hopen⟩
    · rw [if_neg hp]
      exact ⟨hlease, hopen⟩

theorem allSound_pauses {env : Env workspaceKey} (h : AllSound db) (hp : Pauses env db db') :
    AllSound db' := by
  induction hp with
  | refl => exact h
  | step _ _ _ _ _ ih =>
    refine allSound_update ih rfl rfl fun g _ _ => ?_
    exact sound_of_state .paused (by decide) rfl

theorem allSound_deleted {id : String} (ht : Traced uuids w) (h : AllSound w.db) :
    AllSound (deleted id w.db) := by
  intro g hg
  obtain ⟨hg, hid⟩ := mem_deleteWhere.mp hg
  refine (h g hg).of_open fun lease hl => ?_
  constructor
  · rintro ⟨r, hr, hlease, hopen⟩
    exact ⟨r, (mem_deleteWhere.mp hr).1, hlease, hopen⟩
  · rintro ⟨r, hr, rfl, hopen⟩
    refine ⟨r, mem_deleteWhere.mpr ⟨hr, fun hgoal => hid ?_⟩, rfl, hopen⟩
    exact (ht.eq_of_lease hg (ht.requests r hr).1 hl).1.trans hgoal

theorem allSound_granted {env : Env workspaceKey} {row : Goal} (hk : Keyed Goal.id db.goals)
    (hr : db.goalRequests = w.db.goalRequests) (ht : Traced uuids w) (h : AllSound db)
    (hrow : db.goal row.id = some row) :
    AllSound (granted env (uuids.draw w.drawn) row db) := by
  intro g hg
  rcases mem_granted hk hrow hg with rfl | ⟨hg, -⟩
  · refine ⟨fun hs => (by cases hs), fun _ => ⟨uuids.draw w.drawn, rfl, fun r hreq hl _ => ?_⟩⟩
    have hreq : r ∈ w.db.goalRequests := hr ▸ hreq
    have hdrawn := ht.drawn _ (ht.requests r hreq).1
    rw [show (Snapshot.mk r.goalId r.lease).lease = _ from hl] at hdrawn
    exact not_drawn hdrawn
  · exact h g hg

theorem allSound_pending {env : Env workspaceKey} {fresh : Uuid} {message : Message}
    (ht : Traced uuids w) (hs : goal ∈ w.cycles) (h : AllSound w.db)
    (hdb : pending env fresh goal message w.db = .ok (fresh, db')) : AllSound db' := by
  cases hdb
  intro g' hg'
  obtain ⟨g, hg, rfl⟩ := mem_updateWhere.mp hg'
  have hnew : newRequest env fresh goal message ∈
      w.db.goalRequests ++ [newRequest env fresh goal message] :=
    List.mem_append_right _ (List.mem_singleton_self _)
  by_cases hp : goal.Holds g ∧ g.state = .running
  · rw [if_pos hp]
    exact ⟨fun _ => ⟨_, hnew, hp.1.2, Or.inl rfl⟩, fun hrun => by cases hrun⟩
  · rw [if_neg hp]
    refine ⟨fun hwait => ?_, fun hrun => ?_⟩
    · obtain ⟨r, hr, hl, hopen⟩ := (h g hg).awaiting hwait
      exact ⟨r, List.mem_append_left _ hr, hl, hopen⟩
    · obtain ⟨lease, hl, hnone⟩ := (h g hg).running hrun
      refine ⟨lease, hl, fun r hr hlease => ?_⟩
      rcases List.mem_append.mp hr with hr | hr
      · exact hnone r hr hlease
      · -- A request of the lease of a running goal is made by the worker that holds it.
        obtain rfl := List.mem_singleton.mp hr
        cases hlease
        exact absurd ⟨ht.eq_of_lease hg hs hl, hrun⟩ hp

theorem allSound_answered {env : Env workspaceKey} {id : String} {row : Request} {response : Json}
    {summary : String} (hk : Keyed Request.id w.db.goalRequests) (h : AllSound w.db)
    (hfound : answerable id requestId w.db = some row) :
    AllSound (answered env id requestId response summary w.db) := by
  have ha := answerable_some hfound
  intro g hg
  refine (h g hg).of_open fun lease _ => open_update (fun _ => rfl) fun r hr hid _ => ?_
  obtain rfl := hk.eq_of_key ha.mem hr (ha.key.trans hid.symm)
  exact ⟨fun _ => Or.inl ha.state, fun _ => Or.inr rfl⟩

theorem delivered_cases (goal : Snapshot) (requestId : Uuid) (db : GoalDb) :
    ((∃ r ∈ (delivered goal requestId db).goalRequests, r.lease = goal.lease ∧ r.Open) ∧
      (delivered goal requestId db).goals = db.goals) ∨
    ((¬ ∃ r ∈ (delivered goal requestId db).goalRequests, r.lease = goal.lease ∧ r.Open) ∧
      (delivered goal requestId db).goals = updateWhere
        (fun g => goal.Holds g ∧ g.state = .awaitingApproval)
        (fun g => { g with state := .running, detail := "" }) db.goals) := by
  rw [delivered_requests]
  unfold delivered
  dsimp only
  split
  · next h => exact Or.inl ⟨h, rfl⟩
  · next h => exact Or.inr ⟨h, rfl⟩

theorem allSound_delivered {row : Request} (hk : Keyed Request.id w.db.goalRequests)
    (ht : Traced uuids w) (hs : goal ∈ w.cycles) (h : AllSound w.db)
    (hfound : deliverable goal requestId w.db = some row) :
    AllSound (delivered goal requestId w.db) := by
  have hd := deliverable_some hfound
  have hother : ∀ lease, lease ≠ goal.lease →
      ((∃ r ∈ (delivered goal requestId w.db).goalRequests, r.lease = lease ∧ r.Open) ↔
        ∃ r ∈ w.db.goalRequests, r.lease = lease ∧ r.Open) := by
    intro lease hne
    rw [delivered_requests]
    refine open_update (fun _ => rfl) fun r hr hid hl => ?_
    obtain rfl := hk.eq_of_key hd.mem hr (hd.key.trans hid.symm)
    exact absurd (hl.symm.trans hd.lease) hne
  have hfewer : ∀ r ∈ (delivered goal requestId w.db).goalRequests, r.Open → r ∈ w.db.goalRequests := by
    intro r hr hopen
    rw [delivered_requests] at hr
    obtain ⟨r, hr, rfl⟩ := mem_updateWhere.mp hr
    by_cases hp : r.id = requestId
    · rw [if_pos hp] at hopen
      rcases hopen with ho | ho <;> cases ho
    · rwa [if_neg hp]
  -- A goal that waits keeps a request that is open, if its lease has one after the delivery.
  have hkept : ∀ g ∈ w.db.goals, (g.state = .awaitingApproval → g.lease = some goal.lease →
      ∃ r ∈ (delivered goal requestId w.db).goalRequests, r.lease = goal.lease ∧ r.Open) →
      Sound (delivered goal requestId w.db).goalRequests g := by
    intro g hg hopen
    refine ⟨fun hwait => ?_, fun hrun => ?_⟩
    · obtain ⟨r, hr, hl, ho⟩ := (h g hg).awaiting hwait
      by_cases he : r.lease = goal.lease
      · obtain ⟨r', hr', hl', ho'⟩ := hopen hwait (hl.trans (congrArg some he))
        exact ⟨r', hr', hl.trans (congrArg some (he.trans hl'.symm)), ho'⟩
      · obtain ⟨r', hr', hl', ho'⟩ := (hother r.lease he).mpr ⟨r, hr, rfl, ho⟩
        exact ⟨r', hr', hl.trans (congrArg some hl'.symm), ho'⟩
    · obtain ⟨lease, hl, hnone⟩ := (h g hg).running hrun
      exact ⟨lease, hl, fun r hr hlease ho => hnone r (hfewer r hr ho) hlease ho⟩
  rcases delivered_cases goal requestId w.db with ⟨hex, he⟩ | ⟨hno, he⟩
  · intro g hg
    rw [he] at hg
    exact hkept g hg fun _ _ => hex
  · intro g' hg'
    rw [he] at hg'
    obtain ⟨g, hg, rfl⟩ := mem_updateWhere.mp hg'
    by_cases hp : goal.Holds g ∧ g.state = .awaitingApproval
    · rw [if_pos hp]
      exact ⟨fun hs => (by cases hs), fun _ => ⟨goal.lease, hp.1.2, fun r hr hl ho => hno ⟨r, hr, hl, ho⟩⟩⟩
    · rw [if_neg hp]
      exact hkept g hg fun hwait hl => absurd ⟨ht.eq_of_lease hg hs hl, hwait⟩ hp

theorem closing_idle {row : Goal} {report : CycleReport} {id : String} (h : ¬ report.state.Active) :
    ¬ (closing id (outcome row report).2.1 (outcome row report).2.2.2 db).1.Active := by
  have hout : ¬ (outcome row report).2.1.Active := by
    rcases outcome_state row report with ⟨-, he⟩ | he <;> rw [he]
    · decide
    · split_ifs with hs
      · rcases hs with hs | hs <;> rw [hs] <;> decide
      · exact h
  unfold closing
  split_ifs
  · exact (by decide : ¬ GoalState.queued.Active)
  · exact hout

theorem ending_idle (ending : Ending) : ¬ ending.state.Active := by
  cases ending <;> decide

theorem allSound_finished {env : Env workspaceKey} {row : Goal} {report : CycleReport}
    (ht : Traced uuids w) (hs : goal ∈ w.cycles) (h : AllSound w.db)
    (hreport : ¬ report.state.Active) : AllSound (finished env goal row report w.db) := by
  intro g' hg'
  obtain ⟨g, hg, rfl⟩ := mem_updateWhere.mp hg'
  by_cases hid : g.id = goal.id
  · rw [if_pos hid]
    exact sound_of_state _ (closing_idle hreport) rfl
  · rw [if_neg hid]
    refine (h g hg).of_open fun lease hl => open_update (fun _ => rfl) fun r _ hp hlease => ?_
    have hl' : g.lease = some goal.lease := hl.trans (congrArg some (hlease.symm.trans hp.1))
    exact absurd (ht.eq_of_lease hg hs hl').1 hid

theorem allSound_recovered {env : Env workspaceKey} (h : AllSound db) : AllSound (recovered env db) := by
  intro g' hg'
  rw [recovered_goals] at hg'
  obtain ⟨g, hg, rfl⟩ := mem_updateWhere.mp hg'
  by_cases hl : g.lease ≠ none
  · rw [if_pos hl]
    refine sound_of_state (if g.state = .stopped then .stopped else .paused) ?_ rfl
    split_ifs <;> decide
  · rw [if_neg hl]
    exact sound_of_state g.state ((h g hg).idle_of_free (not_not.mp hl)) rfl

/-- **Every call keeps the goals sound.** -/
theorem allSound_does (hc : w.db.Constraints) (ht : Traced uuids w) (h : AllSound w.db)
    (hd : Does uuids w op r db') : AllSound db' := by
  have hk := hc.goals
  have hrests : ∀ {p : Goal → Prop} [DecidablePred p] {f : Goal → Goal} {db₁ : GoalDb} (s : GoalState),
      ¬ s.Active → (∀ g, (f g).state = s) → db₁.goals = updateWhere p f w.db.goals →
      db₁.goalRequests = w.db.goalRequests → AllSound db₁ := by
    intro p _ f db₁ s hs hf he hr
    exact allSound_update h he hr fun g _ _ => sound_of_state s hs (hf g)
  have hsame : ∀ {p : Goal → Prop} [DecidablePred p] {f : Goal → Goal} {db₁ : GoalDb},
      (∀ g, (f g).state = g.state ∧ (f g).lease = g.lease) → db₁.goals = updateWhere p f w.db.goals →
      db₁.goalRequests = w.db.goalRequests → AllSound db₁ := by
    intro p _ f db₁ hf he hr
    exact allSound_update h he hr fun g hg _ => (h g hg).same (hf g).1 (hf g).2
  cases hd with
  | failed => exact h
  | idle => exact h
  | create =>
    intro g hg
    rcases List.mem_append.mp hg with hg | hg
    · exact h g hg
    · obtain rfl := List.mem_singleton.mp hg
      exact sound_of_state .queued (by decide) rfl
  | @feedback env id text given row hrow hopen hnew =>
    refine allSound_update h (addFeedback_goals ..) (addFeedback_requests ..) fun g hg hid => ?_
    obtain rfl := eq_of_row hk hrow hg hid
    obtain ⟨due, updated, s, he, hsame, hready⟩ := fed_eq env g.state g
    rw [he]
    by_cases hs : g.state = .readyForReview
    · exact sound_of_state .queued (by decide) (hready hs)
    · exact (h g hg).same (hsame hs) rfl
  | pause hrow hopen => exact hrests .paused (by decide) (fun g => by rfl) rfl rfl
  | stop hrow hopen => exact hrests .stopped (by decide) (fun g => by rfl) rfl rfl
  | resume hrow hr hs => exact hrests .queued (by decide) (fun g => by rfl) rfl rfl
  | extend hrow hlease hopen hspec =>
    exact hsame (fun g => by exact ⟨rfl, rfl⟩) (relimited_goals ..) (relimited_requests ..)
  | accept hrow hready hlease => exact hrests .completed (by decide) (fun g => by rfl) rfl rfl
  | delete hrow hlease hidle => exact allSound_deleted ht h
  | unclaimed hp => exact allSound_pauses h hp
  | @claimed env identity db₁ goal hp hg =>
    exact allSound_granted (keyed_pauses hk hp) (pauses_requests hp) ht (allSound_pauses h hp) hg.row
  | attach hk' hheld => exact hsame (fun g => by exact ⟨rfl, rfl⟩) rfl rfl
  | refuse hk' hrow hlease hactive hover => exact hrests .paused (by decide) (fun g => by rfl) rfl rfl
  | reserve hk' hrow hlease hactive hroom => exact hsame (fun g => by exact ⟨rfl, rfl⟩) rfl rfl
  | progress hk' hheld => exact hsame (fun g => by exact ⟨rfl, rfl⟩) rfl rfl
  | pending hk' hdb => exact allSound_pending ht (List.mem_of_getElem? hk') h hdb
  | respond hfound hresponse => exact allSound_answered hc.goalRequests h hfound
  | consume hk' hfound =>
    exact allSound_delivered hc.goalRequests ht (List.mem_of_getElem? hk') h hfound
  | @finish k env checkpoint ending detail feedbackIds failure goal row hk' hrow hlease =>
    exact allSound_finished ht (List.mem_of_getElem? hk') h (ending_idle ending)
  | interactive hbusy => exact h
  | recover => exact allSound_recovered h

/-! ### Deliveries -/

def Asks (uuids : Uuids) (w : World) (op : Op workspaceKey) (goal : Snapshot) (requestId : Uuid) :
    Prop :=
  ∃ k env message, op = .worker k (.pending env message) ∧ w.cycles[k]? = some goal ∧
    reply uuids w op = .ok (.requested requestId)

/-- The user answers a request while the goal waits under the lease. -/
def Answers (uuids : Uuids) (w : World) (op : Op workspaceKey) (goal : Snapshot)
    (requestId : Uuid) : Prop :=
  (∃ env allow answers, op = .respond env goal.id requestId allow answers) ∧
    reply uuids w op = .ok .done ∧ ∃ g ∈ w.db.goals, goal.Holds g ∧ g.state = .awaitingApproval

def Delivers (uuids : Uuids) (w : World) (op : Op workspaceKey) (goal : Snapshot)
    (requestId : Uuid) : Prop :=
  ∃ k answer, op = .worker k (.consumeResponse requestId) ∧ w.cycles[k]? = some goal ∧
    reply uuids w op = .ok (.response (some answer))

/-- The request whose answer a call hands out. -/
def delivery (uuids : Uuids) (w : World) (op : Op workspaceKey) : Option Uuid :=
  match op, reply uuids w op with
  | .worker _ (.consumeResponse requestId), .ok (.response (some _)) => some requestId
  | _, _ => none

def deliveries (uuids : Uuids) (ops : List (Op workspaceKey)) : List Uuid :=
  outputs (next uuids) (delivery uuids) {} ops

inductive Ends (uuids : Uuids) (w : World) (goal : Snapshot) : Op workspaceKey → Prop
  | pause {env answer} (h : reply uuids w (.action env (.pause goal.id)) = .ok answer) :
    Ends uuids w goal (.action env (.pause goal.id))
  | stop {env answer} (h : reply uuids w (.action env (.stop goal.id)) = .ok answer) :
    Ends uuids w goal (.action env (.stop goal.id))
  | finish {k env checkpoint ending detail feedbackIds failure answer}
    (hk : w.cycles[k]? = some goal)
    (h : reply uuids w (.worker k (.finish env checkpoint ending detail feedbackIds failure)) =
      .ok answer) :
    Ends uuids w goal (.worker k (.finish env checkpoint ending detail feedbackIds failure))
  | recover {env answer} (h : reply uuids w (.recover env) = .ok answer) :
    Ends uuids w goal (.recover env)

/-- The lease of the cycle is not at work. -/
def Ended (goal : Snapshot) (db : GoalDb) : Prop := ∀ g ∈ db.goals, goal.Holds g → ¬ g.state.Active

/-- **Approvals are delivered at most once and only while valid**, after the calls. -/
structure ApprovalsValid (uuids : Uuids) (ops : List (Op workspaceKey)) : Prop where
  once : (deliveries uuids ops).Nodup
  asked : ∀ (op : Op workspaceKey) goal requestId, Delivers uuids (after uuids ops) op goal requestId →
    ∃ before ask rest, ops = before ++ ask :: rest ∧
      Asks uuids (after uuids before) ask goal requestId
  answered : ∀ (op : Op workspaceKey) goal requestId,
    Delivers uuids (after uuids ops) op goal requestId →
    ∃ before respond rest, ops = before ++ respond :: rest ∧
      Answers uuids (after uuids before) respond goal requestId
  current : ∀ (op : Op workspaceKey) goal requestId,
    Delivers uuids (after uuids ops) op goal requestId →
    ∃ g ∈ (after uuids ops).db.goals, goal.Holds g ∧ g.state.Active
  ended : ∀ (op : Op workspaceKey), ∀ goal ∈ (after uuids ops).cycles,
    Ends uuids (after uuids ops) goal op → ∀ (later : List (Op workspaceKey)) (op' : Op workspaceKey)
      requestId, ¬ Delivers uuids (after uuids (ops ++ op :: later)) op' goal requestId
  awaiting : ∀ g ∈ (after uuids ops).db.goals, g.state = .awaitingApproval →
    ∃ r ∈ (after uuids ops).db.goalRequests, g.lease = some r.lease ∧ r.goalId = g.id ∧ r.Open
  running : ∀ g ∈ (after uuids ops).db.goals, g.state = .running → ∃ lease, g.lease = some lease ∧
    ∀ r ∈ (after uuids ops).db.goalRequests, r.lease = lease → ¬ r.Open

theorem deliverable_of_delivers (hc : w.db.Constraints) (h : Delivers uuids w op goal requestId) :
    ∃ row, Deliverable goal requestId w.db row ∧ (next uuids w op).db = delivered goal requestId w.db := by
  obtain ⟨k, answer, rfl, hk, hr⟩ := h
  have hd := does_of_reply hc.goals hr
  generalize (next uuids w (.worker k (.consumeResponse requestId))).db = db' at hd
  cases hd with
  | idle hi => cases hi
  | @consume _ _ goal' row hk' hfound =>
    rw [hk] at hk'
    cases hk'
    exact ⟨row, deliverable_some hfound, rfl⟩

theorem ended_next (hc : w.db.Constraints) (ht : Traced uuids w) (hs : goal ∈ w.cycles)
    (h : Ended goal w.db) : Ended goal (next uuids w op).db := by
  intro g' hg' hheld hactive
  have hd : Does uuids w op (reply uuids w op) (next uuids w op).db := does_of_reply hc.goals rfl
  rcases lease_does hc.goals hd hg' hheld.2 with ⟨g, hg, hcont⟩ | ⟨hfresh, -⟩
  · obtain ⟨hl, ha⟩ := hcont.lease hheld.2
    exact h g hg ⟨hcont.id.symm.trans hheld.1, hl⟩ (ha hactive)
  · have hdrawn := ht.drawn goal hs
    rw [hfresh] at hdrawn
    exact not_drawn hdrawn

theorem ended_of_halt {env : Env workspaceKey} {target : GoalState} {detail answer : String}
    (ht : ¬ target.Active) (hk : Keyed Goal.id db.goals)
    (h : (transaction (halt env target detail goal.id) db).1 = .ok answer) :
    Ended goal (transaction (halt env target detail goal.id) db).2 := by
  rcases transaction_eq (halt env target detail goal.id) db with ⟨b, db', hb, -, he⟩ | ⟨e, he⟩
  · rw [he]
    obtain ⟨row, hrow, -, ⟨hterm, rfl⟩ | ⟨-, rfl⟩⟩ := halt_ok hb
    · intro g hg hheld hactive
      rw [eq_of_row hk hrow hg hheld.1] at hactive
      rcases hterm with hs | hs <;> rw [hs] at hactive <;> rcases hactive with ha | ha <;> cases ha
    · intro g' hg' hheld
      obtain ⟨g, hg, rfl⟩ := mem_updateWhere.mp hg'
      by_cases hid : g.id = goal.id
      · rw [if_pos hid]
        exact ht
      · rw [if_neg hid] at hheld
        exact absurd hheld.1 hid
  · rw [he] at h
    cases h

/-- **A call that ends the work on a goal ends its lease.** -/
theorem ended_of_ends (hc : w.db.Constraints) (h : Ends uuids w goal op) :
    Ended goal (next uuids w op).db := by
  cases h with
  | pause h =>
    obtain ⟨b, hb⟩ := ok_of_replying h
    exact ended_of_halt (by decide) hc.goals hb
  | stop h =>
    obtain ⟨b, hb⟩ := ok_of_replying h
    exact ended_of_halt (by decide) hc.goals hb
  | finish hk h =>
    have hd := does_of_reply hc.goals h
    generalize (next uuids w _).db = db' at hd
    cases hd with
    | idle hi => cases hi
    | @finish _ _ _ _ _ _ _ goal' row hk' hrow hlease =>
      rw [hk] at hk'
      cases hk'
      intro g' hg' hheld
      obtain ⟨g, hg, rfl⟩ := mem_updateWhere.mp hg'
      by_cases hid : g.id = goal.id
      · rw [if_pos hid] at hheld
        cases hheld.2
      · rw [if_neg hid] at hheld
        exact absurd hheld.1 hid
  | recover h =>
    have hd := does_of_reply hc.goals h
    generalize (next uuids w _).db = db' at hd
    cases hd with
    | idle hi => cases hi
    | recover =>
      intro g' hg' hheld
      rw [recovered_goals] at hg'
      obtain ⟨g, hg, rfl⟩ := mem_updateWhere.mp hg'
      by_cases hl : g.lease ≠ none
      · rw [if_pos hl] at hheld
        cases hheld.2
      · rw [if_neg hl] at hheld
        exact absurd (hheld.2.symm.trans (not_not.mp hl)) (by simp)

def Done (uuids : Uuids) (w : World) (requestId : Uuid) : Prop :=
  Drawn uuids w requestId ∧ ∀ r ∈ w.db.goalRequests, r.id = requestId → ¬ r.Open

theorem done_next (hc : w.db.Constraints) (h : Done uuids w requestId) :
    Done uuids (next uuids w op) requestId := by
  have hd : Does uuids w op (reply uuids w op) (next uuids w op).db := does_of_reply hc.goals rfl
  refine ⟨drawn_next h.1, fun row' hrow' hid ho => ?_⟩
  rcases requests_does hc.goalRequests hd hrow' with ⟨row, hrow, hmoves⟩ | ⟨goal, hmakes⟩
  · exact h.2 row hrow (hmoves.same.1.symm.trans hid) (hmoves.open ho)
  · exact not_drawn (hmakes.fresh ▸ hid ▸ h.1)

theorem done_of_delivers (hc : w.db.Constraints) (ht : Traced uuids w)
    (h : Delivers uuids w op goal requestId) :
    ¬ Done uuids w requestId ∧ Done uuids (next uuids w op) requestId := by
  obtain ⟨row, hd, he⟩ := deliverable_of_delivers hc h
  refine ⟨fun hdone => hdone.2 row hd.mem hd.key (Or.inr hd.state), ?_, fun r hr hid => ?_⟩
  · rw [← hd.key]
    exact drawn_next (ht.requests row hd.mem).2
  · rw [he, delivered_requests] at hr
    obtain ⟨r, hr, rfl⟩ := mem_updateWhere.mp hr
    by_cases hp : r.id = requestId
    · rw [if_pos hp]
      exact fun ho => by rcases ho with ho | ho <;> cases ho
    · rw [if_neg hp] at hid
      exact absurd hid hp

theorem delivers_of_delivery (h : delivery uuids w op = some requestId) :
    ∃ goal, Delivers uuids w op goal requestId := by
  unfold delivery at h
  split at h
  · next k rid answer hr =>
    cases h
    cases hk : w.cycles[k]? with
    | none =>
      -- A call of a cycle that was never handed out raises.
      change (result uuids w (.worker k (.consumeResponse requestId))).1 = _ at hr
      simp only [result, hk] at hr
      cases hr
    | some goal => exact ⟨goal, k, answer, rfl, hk, hr⟩
  · cases h

/-- The invariant of the approvals. -/
structure Kept (uuids : Uuids) (w : World) : Prop where
  constraints : w.db.Constraints
  traced : Traced uuids w
  sound : AllSound w.db

theorem kept_next (h : Kept uuids w) : Kept uuids (next uuids w op) :=
  ⟨constraints_result h.constraints, traced_next h.constraints h.traced,
    allSound_does h.constraints h.traced h.sound (does_of_reply h.constraints.goals rfl)⟩

theorem kept_after (uuids : Uuids) (ops : List (Op workspaceKey)) : Kept uuids (after uuids ops) := by
  refine inv_reachable (fun w op h => kept_next h) ⟨empty_constraints, traced_empty, ?_⟩ ⟨ops, rfl⟩
  simp [AllSound]

theorem ended_run (hk : Kept uuids w) (hs : goal ∈ w.cycles) (h : Ended goal w.db)
    (later : List (Op workspaceKey)) : Ended goal (run (next uuids) w later).db := by
  have hI : ∀ (w : World) (op : Op workspaceKey), (Kept uuids w ∧ goal ∈ w.cycles ∧ Ended goal w.db) →
      Kept uuids (next uuids w op) ∧ goal ∈ (next uuids w op).cycles ∧ Ended goal (next uuids w op).db :=
    fun w op ⟨hk, hs, h⟩ =>
      ⟨kept_next hk, mem_cycles_of_mem hs, ended_next hk.constraints hk.traced hs h⟩
  exact (inv_reachable hI ⟨hk, hs, h⟩ ⟨later, rfl⟩).2.2

theorem exists_of_delivers {ops : List (Op workspaceKey)}
    (h : Delivers uuids (after uuids ops) op goal requestId) :
    ∃ row, Deliverable goal requestId (after uuids ops).db row ∧ row.goalId = goal.id := by
  have hk := kept_after uuids ops
  obtain ⟨row, hd, -⟩ := deliverable_of_delivers hk.constraints h
  obtain ⟨k, answer, -, hcycle, -⟩ := h
  refine ⟨row, hd, ?_⟩
  have he := hk.traced.distinct _ (hk.traced.requests row hd.mem).1 goal (List.mem_of_getElem? hcycle)
    hd.lease
  exact congrArg Snapshot.id he

theorem answers_of_moves {row row' : Request} (hr : reply uuids w op = r) (h : Moves w op r row row')
    (hne : row.state ≠ .answered) (hs : row'.state = .answered) :
    Answers uuids w op ⟨row.goalId, row.lease⟩ row.id := by
  cases h with
  | keep => exact absurd hs hne
  | @answer env id requestId allow answers _ response hfound =>
    have ha := answerable_some hfound
    obtain ⟨g, hg, hid, hl, hwait⟩ := ha.goal
    obtain rfl := ha.key
    obtain rfl := ha.goalId
    exact ⟨⟨env, allow, answers, rfl⟩, hr, g, hg, ⟨hid, hl⟩, hwait⟩
  | deliver => cases hs
  | expire => cases hs

theorem approvals_valid (uuids : Uuids) (ops : List (Op workspaceKey)) : ApprovalsValid uuids ops := by
  have hkept := kept_after uuids ops
  refine ⟨?_, fun op goal requestId h => ?_, fun op goal requestId h => ?_, fun op goal requestId h => ?_,
    fun op goal hs hends later op' requestId h => ?_, fun g hg hwait => ?_, fun g hg hrun => ?_⟩
  · have hdeliver : ∀ (w : World) (op : Op workspaceKey) requestId, Kept uuids w →
        delivery uuids w op = some requestId →
        ¬ Done uuids w requestId ∧ Done uuids (next uuids w op) requestId := by
      intro w op requestId hk hd
      obtain ⟨goal, h⟩ := delivers_of_delivery hd
      exact done_of_delivers hk.constraints hk.traced h
    exact (outputs_nodup (I := Kept uuids) (D := Done uuids) (fun _ _ h => kept_next h) hdeliver
      (fun _ _ _ hk h => done_next hk.constraints h) (kept_after uuids ([] : List (Op workspaceKey)))).1
  · obtain ⟨row, hd, hgoal⟩ := exists_of_delivers h
    obtain ⟨before, ask, rest, rfl, hno, row', hrow', hid, hgoal', hlease⟩ :=
      exists_call_of_run (P := fun w : World => ∃ r ∈ w.db.goalRequests,
        r.id = requestId ∧ r.goalId = goal.id ∧ r.lease = goal.lease) (by simp)
        ⟨row, hd.mem, hd.key, hgoal, hd.lease⟩
    refine ⟨before, ask, rest, rfl, ?_⟩
    have hk := kept_after uuids before
    have hdoes : Does uuids (after uuids before) ask _ _ := does_of_reply hk.constraints.goals rfl
    rcases requests_does hk.constraints.goalRequests hdoes hrow' with ⟨row₀, hrow₀, hmoves⟩ |
      ⟨maker, hmakes⟩
    · obtain ⟨h1, h2, h3⟩ := hmoves.same
      exact absurd ⟨row₀, hrow₀, h1.symm.trans hid, h2.symm.trans hgoal', h3.symm.trans hlease⟩ hno
    · obtain ⟨k, env, message, rfl, hcycle⟩ := hmakes.call
      have hmaker : maker = goal := by
        cases maker
        cases goal
        exact Snapshot.mk.injEq .. ▸
          ⟨hmakes.goalId.symm.trans hgoal', hmakes.lease.symm.trans hlease⟩
      exact ⟨k, env, message, rfl, hmaker ▸ hcycle, hid ▸ hmakes.reply⟩
  · obtain ⟨row, hd, hgoal⟩ := exists_of_delivers h
    obtain ⟨before, respond, rest, rfl, hno, row', hrow', hid, hgoal', hlease, hstate⟩ :=
      exists_call_of_run (P := fun w : World => ∃ r ∈ w.db.goalRequests,
        r.id = requestId ∧ r.goalId = goal.id ∧ r.lease = goal.lease ∧ r.state = .answered) (by simp)
        ⟨row, hd.mem, hd.key, hgoal, hd.lease, hd.state⟩
    refine ⟨before, respond, rest, rfl, ?_⟩
    have hk := kept_after uuids before
    have hdoes : Does uuids (after uuids before) respond _ _ := does_of_reply hk.constraints.goals rfl
    rcases requests_does hk.constraints.goalRequests hdoes hrow' with ⟨row₀, hrow₀, hmoves⟩ |
      ⟨maker, hmakes⟩
    · obtain ⟨h1, h2, h3⟩ := hmoves.same
      have hne : row₀.state ≠ .answered := fun hs =>
        hno ⟨row₀, hrow₀, h1.symm.trans hid, h2.symm.trans hgoal', h3.symm.trans hlease, hs⟩
      have hans := answers_of_moves rfl hmoves hne hstate
      rwa [← h1, hid, ← h2, hgoal', ← h3, hlease] at hans
    · rw [hmakes.state] at hstate
      cases hstate
  · obtain ⟨row, hd, hgoal⟩ := exists_of_delivers h
    obtain ⟨g, hg, hid, hl, hactive⟩ := hd.goal
    exact ⟨g, hg, ⟨hid.trans hgoal, hl.trans (congrArg some hd.lease)⟩, hactive⟩
  · have hended : Ended goal (run (next uuids) (next uuids (after uuids ops) op) later).db :=
      ended_run (kept_next hkept) (mem_cycles_of_mem hs) (ended_of_ends hkept.constraints hends) later
    obtain ⟨row, hd, hgoal⟩ := exists_of_delivers h
    obtain ⟨g, hg, hid, hl, hactive⟩ := hd.goal
    rw [after, run_append] at hg
    exact hended g hg ⟨hid.trans hgoal, hl.trans (congrArg some hd.lease)⟩ hactive
  · obtain ⟨r, hr, hl, ho⟩ := (hkept.sound g hg).awaiting hwait
    exact ⟨r, hr, hl, (hkept.traced.eq_of_lease hg (hkept.traced.requests r hr).1 hl).1.symm, ho⟩
  · exact (hkept.sound g hg).running hrun

/-- An answer is not delivered twice. -/
example : deliveries inOrder [.action (envAt 1) (.create fix (some "a")), .claim (envAt 2) none,
    .worker 0 (.pending (envAt 3) ⟨.num 1, .commandExecution, .null⟩),
    .respond (envAt 4) "a" 2 (some true) none, .worker 0 (.consumeResponse 2),
    .worker 0 (.consumeResponse 2)] = [2] := by
  decide

end Smara.Goals.Approvals
