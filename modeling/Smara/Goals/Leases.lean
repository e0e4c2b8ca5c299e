import Smara.Goals.Effects

/-! # Leases and requests

* `lease_does`: a goal that is leased after a call was leased before, or has just been claimed.
* `requests_does`: a request after a call is new, or has moved on from a request before it.
* `Traced`: leases and request ids are draws, each lease belongs to one cycle of one goal, and requests
  belong to cycles. -/

namespace Smara.Goals.Leases

open Lib.Machine Lib.Table Lib.Transaction
open TaskStore.Schema (Uuid Time seconds)
open Goals.Schema Goals.Schema.GoalDb Goals.Spec Goals.Actions
open Goals.Cycles Goals.Runs Goals.Effects

variable {workspaceKey : String → String} {db db' : GoalDb} {uuids : Uuids} {w : World}
  {op : Op workspaceKey} {r : Except Err Reply}

/-! ### Rows of goals -/

/-- The row is the same goal; it keeps its lease or loses it, and under a lease it is not set to work. -/
structure Continues (g g' : Goal) : Prop where
  id : g'.id = g.id
  lease : ∀ {lease}, g'.lease = some lease → g.lease = some lease ∧ (g'.state.Active → g.state.Active)

theorem Continues.refl (g : Goal) : Continues g g := ⟨rfl, fun h => ⟨h, fun ha => ha⟩⟩

theorem Continues.trans {g g' g'' : Goal} (h : Continues g g') (h' : Continues g' g'') :
    Continues g g'' := by
  refine ⟨h'.id.trans h.id, fun hl => ?_⟩
  obtain ⟨hl', ha'⟩ := h'.lease hl
  obtain ⟨hl, ha⟩ := h.lease hl'
  exact ⟨hl, fun h => ha (ha' h)⟩

theorem Continues.rests {g g' : Goal} (s : GoalState) (hs : ¬ s.Active) (hid : g'.id = g.id)
    (hl : g'.lease = g.lease) (he : g'.state = s) : Continues g g' :=
  ⟨hid, fun h => ⟨hl ▸ h, fun ha => absurd (he ▸ ha) hs⟩⟩

/-- Every row continues a row. -/
def AllContinue (db db' : GoalDb) : Prop := ∀ g' ∈ db'.goals, ∃ g ∈ db.goals, Continues g g'

theorem allContinue_of_goals_eq (h : db'.goals = db.goals) : AllContinue db db' := by
  intro g hg
  rw [h] at hg
  exact ⟨g, hg, Continues.refl g⟩

theorem allContinue_update {p : Goal → Prop} [DecidablePred p] {f : Goal → Goal}
    (he : db'.goals = updateWhere p f db.goals) (hf : ∀ g ∈ db.goals, p g → Continues g (f g)) :
    AllContinue db db' := by
  intro g' hg'
  rw [he] at hg'
  obtain ⟨g, hg, rfl⟩ := mem_updateWhere.mp hg'
  refine ⟨g, hg, ?_⟩
  by_cases hp : p g
  · rw [if_pos hp]
    exact hf g hg hp
  · rw [if_neg hp]
    exact Continues.refl g

theorem allContinue_pauses {env : Env workspaceKey} (hp : Pauses env db db') : AllContinue db db' := by
  induction hp with
  | refl => exact allContinue_of_goals_eq rfl
  | @step db₁ goal _ _ _ _ _ ih =>
    have hlast : AllContinue db₁ (spent env goal.id db₁) := by
      refine allContinue_update rfl fun g _ _ => ⟨rfl, fun hl => ⟨hl, ?_⟩⟩
      rintro (ha | ha) <;> cases ha
    intro g'' hg''
    obtain ⟨g', hg', h'⟩ := hlast g'' hg''
    obtain ⟨g, hg, h⟩ := ih g' hg'
    exact ⟨g, hg, h.trans h'⟩

/-- **A leased goal was leased before, or has just been claimed.** -/
theorem lease_does (hk : Keyed Goal.id w.db.goals) (hd : Does uuids w op r db') {g' : Goal}
    (hg' : g' ∈ db'.goals) {lease : Uuid} (hl : g'.lease = some lease) :
    (∃ g ∈ w.db.goals, Continues g g') ∨ (lease = uuids.draw w.drawn ∧
      ∃ goal, r = .ok (.claimed (some goal)) ∧ goal.id = g'.id ∧ goal.lease = some lease) := by
  cases hd with
  | failed => exact Or.inl ⟨g', hg', .refl g'⟩
  | idle => exact Or.inl ⟨g', hg', .refl g'⟩
  | create =>
    rcases List.mem_append.mp hg' with hg' | hg'
    · exact Or.inl ⟨g', hg', .refl g'⟩
    · obtain rfl := List.mem_singleton.mp hg'
      cases hl
  | @feedback env id text given row hrow hopen hnew =>
    refine Or.inl (allContinue_update (addFeedback_goals ..) (fun g hg hid => ?_) g' hg')
    obtain rfl := eq_of_row hk hrow hg hid
    obtain ⟨due, updated, s, he, hsame, hready⟩ := fed_eq env g.state g
    rw [he]
    by_cases hs : g.state = .readyForReview
    · exact .rests .queued (by decide) rfl rfl (hready hs)
    · rw [hsame hs]
      exact ⟨rfl, fun h => ⟨h, fun ha => ha⟩⟩
  | pause hrow hopen =>
    exact Or.inl (allContinue_update rfl (fun g _ _ => by exact .rests .paused (by decide) rfl rfl rfl) g' hg')
  | stop hrow hopen =>
    exact Or.inl (allContinue_update rfl (fun g _ _ => by exact .rests .stopped (by decide) rfl rfl rfl) g' hg')
  | resume hrow hr hs =>
    exact Or.inl (allContinue_update rfl (fun g _ _ => by exact .rests .queued (by decide) rfl rfl rfl) g' hg')
  | extend hrow hlease hopen hspec =>
    exact Or.inl (allContinue_update (relimited_goals ..)
      (fun g _ _ => ⟨rfl, fun h => ⟨h, fun ha => ha⟩⟩) g' hg')
  | accept hrow hready hlease =>
    exact Or.inl (allContinue_update rfl (fun g _ _ => by exact .rests .completed (by decide) rfl rfl rfl) g' hg')
  | delete hrow hlease hidle => exact Or.inl ⟨g', (mem_deleteWhere.mp hg').1, .refl g'⟩
  | unclaimed hp => exact Or.inl (allContinue_pauses hp g' hg')
  | @claimed env identity db₁ goal hp hg =>
    rcases mem_granted (keyed_pauses hk hp) hg.row hg' with rfl | ⟨hg', -⟩
    · exact Or.inr ⟨(Option.some.inj hl).symm, _, rfl, rfl, hl⟩
    · exact Or.inl (allContinue_pauses hp g' hg')
  | attach hk' hheld =>
    refine Or.inl (allContinue_update rfl (fun g _ _ => ?_) g' hg')
    exact ⟨rfl, fun h => ⟨h, fun ha => ha⟩⟩
  | refuse hk' hrow hlease hactive hover =>
    exact Or.inl (allContinue_update rfl (fun g _ _ => by exact .rests .paused (by decide) rfl rfl rfl) g' hg')
  | reserve hk' hrow hlease hactive hroom =>
    refine Or.inl (allContinue_update rfl (fun g _ _ => ?_) g' hg')
    exact ⟨rfl, fun h => ⟨h, fun ha => ha⟩⟩
  | progress hk' hheld =>
    refine Or.inl (allContinue_update rfl (fun g _ _ => ?_) g' hg')
    exact ⟨rfl, fun h => ⟨h, fun ha => ha⟩⟩
  | pending hk' hdb =>
    cases hdb
    refine Or.inl (allContinue_update rfl (fun g _ hp => ?_) g' hg')
    exact ⟨rfl, fun h => ⟨h, fun _ => Or.inl hp.2⟩⟩
  | respond hrow hresponse => exact Or.inl ⟨g', hg', .refl g'⟩
  | consume hk' hrow =>
    rcases delivered_goals .. with he | he
    · exact Or.inl (allContinue_of_goals_eq he g' hg')
    · exact Or.inl (allContinue_update he
        (fun g _ hp => ⟨rfl, fun h => ⟨h, fun _ => Or.inr hp.2⟩⟩) g' hg')
  | finish hk' hrow hlease =>
    refine Or.inl (allContinue_update rfl (fun g _ _ => ?_) g' hg')
    exact ⟨rfl, fun h => by cases h⟩
  | interactive hbusy => exact Or.inl ⟨g', hg', .refl g'⟩
  | recover =>
    refine Or.inl (allContinue_update (recovered_goals ..) (fun g _ _ => ?_) g' hg')
    exact ⟨rfl, fun h => by cases h⟩

/-! ### Rows of requests -/

/-- How a call moves a request on. -/
inductive Moves (w : World) : Op workspaceKey → Except Err Reply → Request → Request → Prop
  | keep {op r row} : Moves w op r row row
  | answer {env id requestId allow answers row response}
    (hfound : answerable id requestId w.db = some row) :
    Moves w (.respond env id requestId allow answers) (.ok .done) row
      { row with response := some response, state := .answered }
  | deliver {k goal requestId row answer} (hk : w.cycles[k]? = some goal)
    (hfound : deliverable goal requestId w.db = some row) :
    Moves w (.worker k (.consumeResponse requestId)) (.ok (.response (some answer))) row
      { row with response := none, state := .delivered }
  | expire {op r row} (hopen : row.Open) : Moves w op r row { row with state := .expired }

structure Makes (uuids : Uuids) (w : World) (goal : Snapshot) (op : Op workspaceKey)
    (r : Except Err Reply) (row : Request) : Prop where
  call : ∃ k env message, op = .worker k (.pending env message) ∧ w.cycles[k]? = some goal
  reply : r = .ok (.requested row.id)
  fresh : row.id = uuids.draw w.drawn
  goalId : row.goalId = goal.id
  lease : row.lease = goal.lease
  state : row.state = .pending

/-- What a search for a request to answer has found. -/
structure Answerable (id : String) (requestId : Uuid) (db : GoalDb) (row : Request) : Prop where
  mem : row ∈ db.goalRequests
  key : row.id = requestId
  goalId : row.goalId = id
  state : row.state = .pending
  goal : ∃ g ∈ db.goals, g.id = row.goalId ∧ g.lease = some row.lease ∧ g.state = .awaitingApproval

theorem answerable_some {id : String} {requestId : Uuid} {row : Request}
    (h : answerable id requestId db = some row) : Answerable id requestId db row := by
  unfold answerable at h
  have hp := List.find?_some h
  rw [decide_eq_true_eq] at hp
  exact ⟨List.mem_of_find?_eq_some h, hp.1, hp.2.1, hp.2.2.1, hp.2.2.2⟩

/-- What a search for an answer to deliver has found. -/
structure Deliverable (goal : Snapshot) (requestId : Uuid) (db : GoalDb) (row : Request) : Prop where
  mem : row ∈ db.goalRequests
  key : row.id = requestId
  lease : row.lease = goal.lease
  state : row.state = .answered
  goal : ∃ g ∈ db.goals, g.id = row.goalId ∧ g.lease = some row.lease ∧ g.state.Active

theorem deliverable_some {goal : Snapshot} {requestId : Uuid} {row : Request}
    (h : deliverable goal requestId db = some row) : Deliverable goal requestId db row := by
  unfold deliverable at h
  have hp := List.find?_some h
  rw [decide_eq_true_eq] at hp
  exact ⟨List.mem_of_find?_eq_some h, hp.1, hp.2.1, hp.2.2.1, hp.2.2.2⟩

theorem addFeedback_requests (env : Env workspaceKey) (id feedbackId text : String)
    (state : GoalState) (db : GoalDb) :
    (addFeedback env id feedbackId text state db).goalRequests = db.goalRequests := by
  unfold addFeedback
  dsimp only
  split <;> rfl

theorem relimited_requests (env : Env workspaceKey) (id : String) (spec : GoalSpec) (db : GoalDb) :
    (relimited env id spec db).goalRequests = db.goalRequests := by
  unfold relimited
  dsimp only
  split <;> rfl

theorem pauses_requests {env : Env workspaceKey} (hp : Pauses env db db') :
    db'.goalRequests = db.goalRequests := by
  induction hp with
  | refl => rfl
  | step _ _ _ _ _ ih => exact ih

theorem delivered_requests (goal : Snapshot) (requestId : Uuid) (db : GoalDb) :
    (delivered goal requestId db).goalRequests = updateWhere (fun r => r.id = requestId)
      (fun r => { r with response := none, state := .delivered }) db.goalRequests := by
  unfold delivered
  dsimp only
  split <;> rfl

theorem recovered_requests (env : Env workspaceKey) (db : GoalDb) :
    (recovered env db).goalRequests = updateWhere Request.Open
      (fun r => { r with state := .expired }) db.goalRequests := by
  obtain ⟨events, n, he⟩ := recoveryEvents_eq env db
  unfold recovered
  rw [he]
  rfl

theorem moves_update {p : Request → Prop} [DecidablePred p] {f : Request → Request}
    (he : db'.goalRequests = updateWhere p f w.db.goalRequests)
    (hf : ∀ row ∈ w.db.goalRequests, p row → Moves w op r row (f row)) :
    ∀ row' ∈ db'.goalRequests, ∃ row ∈ w.db.goalRequests, Moves w op r row row' := by
  intro row' hrow'
  rw [he] at hrow'
  obtain ⟨row, hrow, rfl⟩ := mem_updateWhere.mp hrow'
  refine ⟨row, hrow, ?_⟩
  by_cases hp : p row
  · rw [if_pos hp]
    exact hf row hrow hp
  · rw [if_neg hp]
    exact .keep

/-- **A request is new, or has moved on.** -/
theorem requests_does (hk : Keyed Request.id w.db.goalRequests) (hd : Does uuids w op r db')
    {row' : Request} (hrow' : row' ∈ db'.goalRequests) :
    (∃ row ∈ w.db.goalRequests, Moves w op r row row') ∨ ∃ goal, Makes uuids w goal op r row' := by
  have hsame : db'.goalRequests = w.db.goalRequests →
      ∃ row ∈ w.db.goalRequests, Moves w op r row row' := fun he => ⟨row', he ▸ hrow', .keep⟩
  cases hd with
  | feedback => exact Or.inl (hsame (addFeedback_requests ..))
  | extend => exact Or.inl (hsame (relimited_requests ..))
  | delete => exact Or.inl ⟨row', (mem_deleteWhere.mp hrow').1, .keep⟩
  | unclaimed hp => exact Or.inl (hsame (pauses_requests hp))
  | @claimed env identity db₁ goal hp hg =>
    have he : db₁.goalRequests = w.db.goalRequests := pauses_requests hp
    exact Or.inl (hsame he)
  | @pending k env message goal _ hk' hdb =>
    cases hdb
    rcases List.mem_append.mp hrow' with hrow' | hrow'
    · exact Or.inl ⟨row', hrow', .keep⟩
    · obtain rfl := List.mem_singleton.mp hrow'
      exact Or.inr ⟨goal, ⟨k, env, message, rfl, hk'⟩, rfl, rfl, rfl, rfl, rfl⟩
  | respond hfound hresponse =>
    refine Or.inl (moves_update rfl (fun row hrow hid => ?_) row' hrow')
    have ha := answerable_some hfound
    obtain rfl := hk.eq_of_key ha.mem hrow (ha.key.trans hid.symm)
    exact .answer hfound
  | consume hk' hfound =>
    refine Or.inl (moves_update (delivered_requests ..) (fun row hrow hid => ?_) row' hrow')
    have ha := deliverable_some hfound
    obtain rfl := hk.eq_of_key ha.mem hrow (ha.key.trans hid.symm)
    exact .deliver hk' hfound
  | finish hk' hrow hlease =>
    exact Or.inl (moves_update rfl (fun row _ hp => .expire hp.2) row' hrow')
  | recover =>
    exact Or.inl (moves_update (recovered_requests ..) (fun row _ hp => .expire hp) row' hrow')
  | _ => exact Or.inl (hsame rfl)

theorem Moves.same {row row' : Request} (h : Moves w op r row row') :
    row'.id = row.id ∧ row'.goalId = row.goalId ∧ row'.lease = row.lease := by
  cases h <;> exact ⟨rfl, rfl, rfl⟩

theorem Moves.open {row row' : Request} (h : Moves w op r row row') (ho : row'.Open) : row.Open := by
  cases h with
  | keep => exact ho
  | answer hfound => exact Or.inl (answerable_some hfound).state
  | deliver hk hfound => exact Or.inr (deliverable_some hfound).state
  | expire hopen => exact hopen

/-! ### The cycles -/

def Drawn (uuids : Uuids) (w : World) (id : Uuid) : Prop := ∃ i < w.drawn, id = uuids.draw i

/-- **Leases and requests belong to cycles.** -/
structure Traced (uuids : Uuids) (w : World) : Prop where
  drawn : ∀ s ∈ w.cycles, Drawn uuids w s.lease
  distinct : ∀ s ∈ w.cycles, ∀ s' ∈ w.cycles, s.lease = s'.lease → s = s'
  goals : ∀ g ∈ w.db.goals, ∀ lease, g.lease = some lease → ⟨g.id, lease⟩ ∈ w.cycles
  requests : ∀ r ∈ w.db.goalRequests, ⟨r.goalId, r.lease⟩ ∈ w.cycles ∧ Drawn uuids w r.id

theorem traced_empty : Traced uuids {} := ⟨by simp, by simp, by simp, by simp⟩

theorem not_drawn : ¬ Drawn uuids w (uuids.draw w.drawn) := by
  rintro ⟨i, hi, he⟩
  exact absurd (uuids.distinct he) (Nat.ne_of_gt hi)

theorem Traced.eq_of_lease (h : Traced uuids w) {g : Goal} {s : Snapshot} (hg : g ∈ w.db.goals)
    (hs : s ∈ w.cycles) (hl : g.lease = some s.lease) : s.Holds g := by
  have he := h.distinct ⟨g.id, s.lease⟩ (h.goals g hg _ hl) s hs rfl
  exact ⟨congrArg Snapshot.id he, hl⟩

theorem mem_cycles_next {s : Snapshot} (hs : s ∈ (next uuids w op).cycles) :
    s ∈ w.cycles ∨ ∃ goal, reply uuids w op = .ok (.claimed (some goal)) ∧ goal.id = s.id ∧
      goal.lease = some s.lease := by
  rcases List.mem_append.mp hs with hs | hs
  · exact Or.inl hs
  · change s ∈ started (reply uuids w op) at hs
    unfold started at hs
    split at hs
    · next goal hr =>
      simp only [Option.mem_toList, Option.map_eq_some_iff] at hs
      obtain ⟨lease, hl, rfl⟩ := hs
      exact Or.inr ⟨goal, hr, rfl, hl⟩
    · cases hs

theorem mem_cycles_of_claimed {goal : Goal} {lease : Uuid}
    (hr : reply uuids w op = .ok (.claimed (some goal))) (hl : goal.lease = some lease) :
    ⟨goal.id, lease⟩ ∈ (next uuids w op).cycles := by
  refine List.mem_append_right _ ?_
  show _ ∈ started (reply uuids w op)
  rw [hr, started, hl]
  exact List.mem_singleton_self _

theorem lease_of_claimed {goal : Goal} {lease : Uuid} (hd : Does uuids w op r db')
    (hr : r = .ok (.claimed (some goal))) (hl : goal.lease = some lease) :
    lease = uuids.draw w.drawn := by
  cases hd with
  | idle hi =>
    cases hr
    cases hi
  | claimed hp hg =>
    cases hr
    exact (Option.some.inj hl).symm
  | _ => cases hr

theorem drawn_next {id : Uuid} (h : Drawn uuids w id) : Drawn uuids (next uuids w op) id := by
  obtain ⟨i, hi, he⟩ := h
  exact ⟨i, Nat.lt_succ_of_lt hi, he⟩

theorem mem_cycles_of_mem {s : Snapshot} (hs : s ∈ w.cycles) : s ∈ (next uuids w op).cycles :=
  List.mem_append_left _ hs

theorem traced_next (hc : w.db.Constraints) (h : Traced uuids w) : Traced uuids (next uuids w op) := by
  have hd : Does uuids w op (reply uuids w op) (next uuids w op).db := does_of_reply hc.goals rfl
  have hnew : ∀ {s goal}, reply uuids w op = .ok (.claimed (some goal)) → goal.lease = some s →
      s = uuids.draw w.drawn := fun hr hl => lease_of_claimed hd hr hl
  refine ⟨fun s hs => ?_, fun s hs s' hs' he => ?_, fun g hg lease hl => ?_, fun row hrow => ?_⟩
  · rcases mem_cycles_next hs with hs | ⟨goal, hr, -, hl⟩
    · exact drawn_next (h.drawn s hs)
    · exact ⟨w.drawn, Nat.lt_succ_self _, hnew hr hl⟩
  · rcases mem_cycles_next hs with hs | ⟨goal, hr, hid, hl⟩ <;>
      rcases mem_cycles_next hs' with hs' | ⟨goal', hr', hid', hl'⟩
    · exact h.distinct s hs s' hs' he
    · have hdrawn := h.drawn s hs
      rw [he, hnew hr' hl'] at hdrawn
      exact absurd hdrawn not_drawn
    · have hdrawn := h.drawn s' hs'
      rw [← he, hnew hr hl] at hdrawn
      exact absurd hdrawn not_drawn
    · rw [hr] at hr'
      cases hr'
      cases s
      cases s'
      cases hid
      cases hid'
      cases he
      rfl
  · rcases lease_does hc.goals hd hg hl with ⟨g₀, hg₀, hcont⟩ | ⟨-, goal, hr, hid, hlease⟩
    · rw [hcont.id]
      exact mem_cycles_of_mem (h.goals g₀ hg₀ lease (hcont.lease hl).1)
    · rw [← hid]
      exact mem_cycles_of_claimed hr hlease
  · rcases requests_does hc.goalRequests hd hrow with ⟨row₀, hrow₀, hmoves⟩ | ⟨goal, hmakes⟩
    · obtain ⟨hid, hgoal, hlease⟩ := hmoves.same
      rw [hid, hgoal, hlease]
      exact ⟨mem_cycles_of_mem (h.requests row₀ hrow₀).1, drawn_next (h.requests row₀ hrow₀).2⟩
    · obtain ⟨k, env, message, rfl, hk⟩ := hmakes.call
      rw [hmakes.goalId, hmakes.lease]
      exact ⟨mem_cycles_of_mem (List.mem_of_getElem? hk), w.drawn, Nat.lt_succ_self _, hmakes.fresh⟩

end Smara.Goals.Leases
