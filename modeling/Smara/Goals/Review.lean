import Smara.Goals.Leases

/-! # Feedback and review

Feedback waits until the end of a cycle names it. A goal is ready for review, and may then be accepted,
only while no feedback waits for it.

* `feedback_does`: what a call does to a row of feedback.
* `never_bypassed`: in every reachable ledger no feedback waits for a goal that is ready for review or
  completed, and feedback is used only by the end of a cycle that names it. -/

namespace Smara.Goals.Review

open Lib.Machine Lib.Table Lib.Transaction
open TaskStore.Schema (Uuid Time seconds)
open Goals.Schema Goals.Schema.GoalDb Goals.Spec Goals.Actions
open Goals.Cycles Goals.Runs Goals.Effects Goals.Leases

variable {workspaceKey : String → String} {db db' : GoalDb} {uuids : Uuids} {w : World}
  {op : Op workspaceKey} {r : Except Err Reply} {id : String}

def Reviewed (g : Goal) : Prop := g.state = .readyForReview ∨ g.state = .completed

def Heard (db : GoalDb) : Prop := ∀ g ∈ db.goals, Reviewed g → ¬ Waiting g.id db

theorem not_reviewed {g : Goal} (s : GoalState) (h : s ≠ .readyForReview ∧ s ≠ .completed)
    (he : g.state = s) : ¬ Reviewed g :=
  fun hr => hr.elim (fun hs => h.1 (he.symm.trans hs)) fun hs => h.2 (he.symm.trans hs)

theorem waiting_mono (h : ∀ f ∈ db'.goalFeedback, f.consumed = false → f ∈ db.goalFeedback)
    (hw : Waiting id db') : Waiting id db := by
  obtain ⟨f, hf, hid, hopen⟩ := hw
  exact ⟨f, h f hf hopen, hid, hopen⟩

theorem heard_update {p : Goal → Prop} [DecidablePred p] {f : Goal → Goal} (h : Heard db)
    (he : db'.goals = updateWhere p f db.goals)
    (hw : ∀ f ∈ db'.goalFeedback, f.consumed = false → f ∈ db.goalFeedback)
    (hf : ∀ g ∈ db.goals, p g → (f g).id = g.id ∧ (Reviewed (f g) → Reviewed g)) : Heard db' := by
  intro g' hg' hr
  rw [he] at hg'
  obtain ⟨g, hg, rfl⟩ := mem_updateWhere.mp hg'
  by_cases hp : p g
  · rw [if_pos hp] at hr ⊢
    rw [(hf g hg hp).1]
    exact fun hwait => h g hg ((hf g hg hp).2 hr) (waiting_mono hw hwait)
  · rw [if_neg hp] at hr ⊢
    exact fun hwait => h g hg hr (waiting_mono hw hwait)

theorem heard_of_subset (h : Heard db) (hs : ∀ g ∈ db'.goals, g ∈ db.goals)
    (hw : ∀ f ∈ db'.goalFeedback, f.consumed = false → f ∈ db.goalFeedback) : Heard db' :=
  fun g hg hr hwait => h g (hs g hg) hr (waiting_mono hw hwait)

theorem heard_pauses {env : Env workspaceKey} (h : Heard db) (hp : Pauses env db db') : Heard db' := by
  induction hp with
  | refl => exact h
  | step _ _ _ _ _ ih =>
    refine heard_update ih rfl (fun f hf _ => hf) fun g _ _ => ⟨rfl, fun hr => absurd hr ?_⟩
    exact not_reviewed .paused (by decide) rfl

theorem addFeedback_feedback (env : Env workspaceKey) (id feedbackId text : String) (state : GoalState)
    (db : GoalDb) : (addFeedback env id feedbackId text state db).goalFeedback =
      db.goalFeedback ++ [⟨feedbackId, id, text, env.now, false⟩] := by
  unfold addFeedback
  dsimp only
  split <;> rfl

theorem relimited_feedback (env : Env workspaceKey) (id : String) (spec : GoalSpec) (db : GoalDb) :
    (relimited env id spec db).goalFeedback = db.goalFeedback := by
  unfold relimited
  dsimp only
  split <;> rfl

theorem delivered_feedback (goal : Snapshot) (requestId : Uuid) (db : GoalDb) :
    (delivered goal requestId db).goalFeedback = db.goalFeedback := by
  unfold delivered
  dsimp only
  split <;> rfl

theorem recovered_feedback (env : Env workspaceKey) (db : GoalDb) :
    (recovered env db).goalFeedback = db.goalFeedback := by
  obtain ⟨events, n, he⟩ := recoveryEvents_eq env db
  unfold recovered
  rw [he]
  rfl

theorem pauses_feedback {env : Env workspaceKey} (hp : Pauses env db db') :
    db'.goalFeedback = db.goalFeedback := by
  induction hp with
  | refl => rfl
  | step _ _ _ _ _ ih => exact ih

theorem heard_addFeedback {env : Env workspaceKey} {feedbackId text : String} {row : Goal}
    (hk : Keyed Goal.id db.goals) (h : Heard db) (hrow : db.goal id = some row)
    (hopen : ¬ row.state.Terminal) : Heard (addFeedback env id feedbackId text row.state db) := by
  intro g' hg' hr ⟨f, hf, hid, hwait⟩
  rw [addFeedback_goals] at hg'
  rw [addFeedback_feedback] at hf
  obtain ⟨g, hg, rfl⟩ := mem_updateWhere.mp hg'
  by_cases hp : g.id = id
  · rw [if_pos hp] at hr
    obtain rfl := eq_of_row hk hrow hg hp
    obtain ⟨due, updated, s, he, hsame, hready⟩ := fed_eq env g.state g
    rw [he] at hr
    by_cases hs : g.state = .readyForReview
    · exact not_reviewed .queued (by decide) (hready hs) hr
    · rcases hr with hr | hr
      · exact hs ((hsame hs).symm.trans hr)
      · exact hopen (Or.inl ((hsame hs).symm.trans hr))
  · rw [if_neg hp] at hr hid
    rcases List.mem_append.mp hf with hf | hf
    · exact h g hg hr ⟨f, hf, hid, hwait⟩
    · obtain rfl := List.mem_singleton.mp hf
      exact hp hid.symm

theorem unread_of_consumed {goal : Snapshot} {feedbackIds : List String} :
    ∀ f ∈ (consumed goal feedbackIds db).goalFeedback, f.consumed = false → f ∈ db.goalFeedback := by
  intro f' hf' hopen
  obtain ⟨f, hf, rfl⟩ := mem_updateWhere.mp hf'
  by_cases hp : f.id ∈ feedbackIds ∧ f.goalId = goal.id
  · rw [if_pos hp] at hopen
    cases hopen
  · rw [if_neg hp]
    exact hf

theorem heard_finished {env : Env workspaceKey} {goal : Snapshot} {row : Goal} {report : CycleReport}
    (h : Heard db) (hreport : report.state ≠ .completed) : Heard (finished env goal row report db) := by
  intro g' hg' hr hwait
  obtain ⟨g, hg, rfl⟩ := mem_updateWhere.mp hg'
  by_cases hid : g.id = goal.id
  · rw [if_pos hid] at hr hwait
    have hread : Waiting goal.id (consumed goal report.feedbackIds db) := by
      obtain ⟨f, hf, hfid, hopen⟩ := hwait
      exact ⟨f, hf, hfid.trans hid, hopen⟩
    rcases hr with hr | hr
    · change (closing _ _ _ _).1 = _ at hr
      unfold closing at hr
      split_ifs at hr with hc
      exact hc ⟨hr, hread⟩
    · change (closing _ _ _ _).1 = _ at hr
      unfold closing at hr
      split_ifs at hr with hc
      rcases outcome_state row report with ⟨-, he⟩ | he
      · rw [he] at hr
        cases hr
      · rw [he] at hr
        split_ifs at hr with hs
        · rcases hs with hs | hs <;> rw [hs] at hr <;> cases hr
        · exact hreport hr
  · rw [if_neg hid] at hr hwait
    exact h g hg hr (waiting_mono unread_of_consumed hwait)

/-- **Every call keeps feedback heard.** -/
theorem heard_does (hk : Keyed Goal.id w.db.goals) (h : Heard w.db) (hd : Does uuids w op r db') :
    Heard db' := by
  have hall : ∀ {db₁ : GoalDb}, db₁.goalFeedback = w.db.goalFeedback →
      ∀ f ∈ db₁.goalFeedback, f.consumed = false → f ∈ w.db.goalFeedback := fun he f hf _ => he ▸ hf
  have hrests : ∀ {p : Goal → Prop} [DecidablePred p] {f : Goal → Goal} {db₁ : GoalDb} (s : GoalState),
      s ≠ .readyForReview ∧ s ≠ .completed → (∀ g, (f g).id = g.id ∧ (f g).state = s) →
      db₁.goals = updateWhere p f w.db.goals → db₁.goalFeedback = w.db.goalFeedback → Heard db₁ := by
    intro p _ f db₁ s hs hf he hfb
    refine heard_update h he (hall hfb) fun g _ _ => ⟨(hf g).1, fun hr => absurd hr ?_⟩
    exact not_reviewed s hs (hf g).2
  have hsame : ∀ {p : Goal → Prop} [DecidablePred p] {f : Goal → Goal} {db₁ : GoalDb},
      (∀ g, (f g).id = g.id ∧ (f g).state = g.state) → db₁.goals = updateWhere p f w.db.goals →
      db₁.goalFeedback = w.db.goalFeedback → Heard db₁ := by
    intro p _ f db₁ hf he hfb
    refine heard_update h he (hall hfb) fun g _ _ => ⟨(hf g).1, ?_⟩
    unfold Reviewed
    rw [(hf g).2]
    exact id
  cases hd with
  | failed => exact h
  | idle => exact h
  | create =>
    intro g hg hr
    rcases List.mem_append.mp hg with hg | hg
    · exact h g hg hr
    · obtain rfl := List.mem_singleton.mp hg
      exact absurd hr (not_reviewed .queued (by decide) rfl)
  | feedback hrow hopen hnew => exact heard_addFeedback hk h hrow hopen
  | pause hrow hopen => exact hrests .paused (by decide) (fun g => by exact ⟨rfl, rfl⟩) rfl rfl
  | stop hrow hopen => exact hrests .stopped (by decide) (fun g => by exact ⟨rfl, rfl⟩) rfl rfl
  | resume hrow hr hs => exact hrests .queued (by decide) (fun g => by exact ⟨rfl, rfl⟩) rfl rfl
  | extend hrow hlease hopen hspec =>
    exact hsame (fun g => by exact ⟨rfl, rfl⟩) (relimited_goals ..) (relimited_feedback ..)
  | accept hrow hready hlease =>
    refine heard_update h rfl (hall rfl) fun g hg hid => ⟨rfl, fun _ => Or.inl ?_⟩
    rw [eq_of_row hk hrow hg hid]
    exact hready
  | delete hrow hlease hidle =>
    exact heard_of_subset h (fun g hg => (mem_deleteWhere.mp hg).1)
      fun f hf _ => (mem_deleteWhere.mp hf).1
  | unclaimed hp => exact heard_pauses h hp
  | @claimed env identity db₁ goal hp hg =>
    intro g hg' hr
    rcases mem_granted (keyed_pauses hk hp) hg.row hg' with rfl | ⟨hg', -⟩
    · exact absurd hr (not_reviewed .running (by decide) rfl)
    · exact heard_pauses h hp g hg' hr
  | attach hk' hheld => exact hsame (fun g => by exact ⟨rfl, rfl⟩) rfl rfl
  | refuse hk' hrow hlease hactive hover =>
    exact hrests .paused (by decide) (fun g => by exact ⟨rfl, rfl⟩) rfl rfl
  | reserve hk' hrow hlease hactive hroom => exact hsame (fun g => by exact ⟨rfl, rfl⟩) rfl rfl
  | progress hk' hheld => exact hsame (fun g => by exact ⟨rfl, rfl⟩) rfl rfl
  | pending hk' hdb =>
    cases hdb
    exact hrests .awaitingApproval (by decide) (fun g => by exact ⟨rfl, rfl⟩) rfl rfl
  | respond hfound hresponse => exact heard_of_subset h (fun g hg => hg) (hall rfl)
  | consume hk' hfound =>
    rcases delivered_goals .. with he | he
    · exact heard_of_subset h (fun g hg => he ▸ hg) (hall (delivered_feedback ..))
    · exact hrests .running (by decide) (fun g => by exact ⟨rfl, rfl⟩) he (delivered_feedback ..)
  | @finish k env checkpoint ending detail feedbackIds failure goal row hk' hrow hlease =>
    refine heard_finished h ?_
    cases ending <;> exact fun hs => by cases hs
  | interactive hbusy => exact heard_of_subset h (fun g hg => hg) (hall rfl)
  | recover =>
    refine heard_update h (recovered_goals ..) (hall (recovered_feedback ..)) fun g _ _ =>
      ⟨rfl, fun hr => absurd hr ?_⟩
    refine not_reviewed (if g.state = .stopped then .stopped else .paused) ?_ rfl
    split_ifs <;> decide

/-! ### Rows of feedback -/

def Names (uuids : Uuids) (w : World) (f : Feedback) (op : Op workspaceKey) : Prop :=
  ∃ k env checkpoint ending detail feedbackIds failure goal,
    op = .worker k (.finish env checkpoint ending detail feedbackIds failure) ∧
    w.cycles[k]? = some goal ∧ goal.id = f.goalId ∧ f.id ∈ feedbackIds ∧
    reply uuids w op = .ok .done

def Dismisses (uuids : Uuids) (w : World) (id : String) (op : Op workspaceKey) : Prop :=
  (∃ env, op = .action env (.delete id)) ∧ reply uuids w op = .ok (.id id)

/-- **A row of feedback stays as it is, unless a cycle names it or its goal is deleted.** -/
theorem feedback_does (hd : Does uuids w op r db') (hr : reply uuids w op = r) {f : Feedback}
    (hf : f ∈ w.db.goalFeedback) : f ∈ db'.goalFeedback ∨
      (Names uuids w f op ∧ { f with consumed := true } ∈ db'.goalFeedback) ∨
      Dismisses uuids w f.goalId op := by
  cases hd with
  | feedback =>
    rw [addFeedback_feedback]
    exact Or.inl (List.mem_append_left _ hf)
  | extend =>
    rw [relimited_feedback]
    exact Or.inl hf
  | @delete env id row hrow hlease hidle =>
    by_cases hid : f.goalId = id
    · rw [hid]
      exact Or.inr (Or.inr ⟨⟨env, rfl⟩, hr⟩)
    · exact Or.inl (mem_deleteWhere.mpr ⟨hf, hid⟩)
  | unclaimed hp =>
    rw [pauses_feedback hp]
    exact Or.inl hf
  | @claimed env identity db₁ goal hp hg =>
    have he : db₁.goalFeedback = w.db.goalFeedback := pauses_feedback hp
    exact Or.inl (he ▸ hf)
  | pending hk hdb =>
    cases hdb
    exact Or.inl hf
  | consume =>
    rw [delivered_feedback]
    exact Or.inl hf
  | @finish k env checkpoint ending detail feedbackIds failure goal row hk hrow hlease =>
    have hmem : (if f.id ∈ feedbackIds ∧ f.goalId = goal.id then { f with consumed := true } else f) ∈
        (finished env goal row ⟨checkpoint, ending.state, detail, feedbackIds, failure⟩
          w.db).goalFeedback := mem_updateWhere.mpr ⟨f, hf, rfl⟩
    by_cases hnamed : f.id ∈ feedbackIds ∧ f.goalId = goal.id
    · rw [if_pos hnamed] at hmem
      exact Or.inr (Or.inl ⟨⟨k, env, checkpoint, ending, detail, feedbackIds, failure, goal, rfl, hk,
        hnamed.2.symm, hnamed.1, hr⟩, hmem⟩)
    · rw [if_neg hnamed] at hmem
      exact Or.inl hmem
  | recover =>
    rw [recovered_feedback]
    exact Or.inl hf
  | _ => exact Or.inl hf

theorem feedback_accepted {env : Env workspaceKey} {text : String} {given : Option String}
    {answer : Reply} (hr : reply uuids w (.action env (.feedback id text given)) = .ok answer) :
    (∃ f ∈ w.db.goalFeedback, f.id = orDrawn given (uuids.draw w.drawn)) ∨
      ⟨orDrawn given (uuids.draw w.drawn), id, strip text, env.now, false⟩ ∈
        (next uuids w (.action env (.feedback id text given))).db.goalFeedback := by
  obtain ⟨answer', hok⟩ := ok_of_replying hr
  show _ ∨ _ ∈ (transaction (action env (uuids.draw w.drawn) (.feedback id text given)) w.db).2.goalFeedback
  rcases transaction_eq (action env (uuids.draw w.drawn) (.feedback id text given)) w.db with
    ⟨b, db', hbody, -, he⟩ | ⟨e, he⟩
  · obtain ⟨row, -, -, -, -, ⟨hex, -⟩ | ⟨-, rfl⟩⟩ := feedback_ok hbody
    · exact Or.inl hex
    · rw [he, addFeedback_feedback]
      exact Or.inr (List.mem_append_right _ (List.mem_singleton_self _))
  · rw [he] at hok
    cases hok

/-- **Feedback is never silently bypassed**, after the calls. -/
structure NeverBypassed (uuids : Uuids) (ops : List (Op workspaceKey)) : Prop where
  heard : ∀ g ∈ (after uuids ops).db.goals, Reviewed g → ¬ Waiting g.id (after uuids ops).db
  accepted : ∀ (env : Env workspaceKey) id text given answer,
    reply uuids (after uuids ops) (.action env (.feedback id text given)) = .ok answer →
    (∃ f ∈ (after uuids ops).db.goalFeedback,
      f.id = orDrawn given (uuids.draw (after uuids ops).drawn)) ∨
    ⟨orDrawn given (uuids.draw (after uuids ops).drawn), id, strip text, env.now, false⟩ ∈
      (next uuids (after uuids ops) (.action env (.feedback id text given))).db.goalFeedback
  consumed : ∀ op : Op workspaceKey, ∀ f ∈ (after uuids ops).db.goalFeedback, f.consumed = false →
    f ∈ (next uuids (after uuids ops) op).db.goalFeedback ∨
    (Names uuids (after uuids ops) f op ∧
      { f with consumed := true } ∈ (next uuids (after uuids ops) op).db.goalFeedback) ∨
    Dismisses uuids (after uuids ops) f.goalId op

theorem heard_reachable (h : Reachable (@next workspaceKey uuids) {} w) :
    w.db.Constraints ∧ Heard w.db := by
  refine inv_reachable (I := fun w : World => w.db.Constraints ∧ Heard w.db) (fun w op hI => ?_)
    ⟨empty_constraints, by simp [Heard]⟩ h
  exact ⟨constraints_result hI.1, heard_does hI.1.goals hI.2 (does_of_reply hI.1.goals rfl)⟩

theorem never_bypassed (uuids : Uuids) (ops : List (Op workspaceKey)) : NeverBypassed uuids ops := by
  have hreach : Reachable (next uuids) {} (after uuids ops) := ⟨ops, rfl⟩
  obtain ⟨hc, hheard⟩ := heard_reachable hreach
  refine ⟨hheard, fun env id text given answer hr => feedback_accepted hr, fun op f hf _ => ?_⟩
  exact feedback_does (does_of_reply hc.goals rfl) rfl hf

end Smara.Goals.Review
