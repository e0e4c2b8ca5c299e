import Smara.Goals.Effects

/-! # One owner of each project

Two mechanisms keep work on a project apart: the leases of its goals, and the heartbeats of interactive
sessions. Both go by the `workspace_key` of the project.

* `one_owner`: in every reachable ledger at most one goal of a project is leased, a claim grants no
  lease on a project that is busy, and no session starts on a project that another worker has. -/

namespace Smara.Goals.Owner

open Lib.Machine Lib.Table Lib.Transaction
open TaskStore.Schema (Uuid Time seconds)
open Goals.Schema Goals.Schema.GoalDb Goals.Spec Goals.Actions
open Goals.Cycles Goals.Runs Goals.Effects

variable {workspaceKey : String → String} {db db' : GoalDb} {uuids : Uuids} {w : World}
  {op : Op workspaceKey}

/-! ### Leases -/

/-- At most one goal of a project is leased, and goals carry the key of their project. -/
structure Owned (workspaceKey : String → String) (db : GoalDb) : Prop where
  keys : ∀ g ∈ db.goals, g.workspaceKey = workspaceKey g.spec.workspace
  unique : ∀ g ∈ db.goals, ∀ g' ∈ db.goals, g.lease ≠ none → g'.lease ≠ none →
    g.workspaceKey = g'.workspaceKey → g = g'

/-- The row keeps its project, and gets no lease. -/
structure Leaves (workspaceKey : String → String) (g g' : Goal) : Prop where
  key : g'.workspaceKey = g.workspaceKey
  project : workspaceKey g'.spec.workspace = workspaceKey g.spec.workspace
  lease : g'.lease ≠ none → g.lease ≠ none

theorem owned_update {p : Goal → Prop} [DecidablePred p] {f : Goal → Goal} (h : Owned workspaceKey db)
    (he : db'.goals = updateWhere p f db.goals)
    (hf : ∀ g ∈ db.goals, p g → Leaves workspaceKey g (f g)) : Owned workspaceKey db' := by
  have hrow : ∀ g ∈ db.goals, Leaves workspaceKey g (if p g then f g else g) := by
    intro g hg
    by_cases hp : p g
    · rw [if_pos hp]
      exact hf g hg hp
    · rw [if_neg hp]
      exact ⟨rfl, rfl, id⟩
  refine ⟨fun g' hg' => ?_, fun g₁ hg₁ g₂ hg₂ hl₁ hl₂ hk => ?_⟩
  · rw [he] at hg'
    obtain ⟨g, hg, rfl⟩ := mem_updateWhere.mp hg'
    rw [(hrow g hg).key, (hrow g hg).project]
    exact h.keys g hg
  · rw [he] at hg₁ hg₂
    obtain ⟨g, hg, rfl⟩ := mem_updateWhere.mp hg₁
    obtain ⟨g', hg', rfl⟩ := mem_updateWhere.mp hg₂
    rw [(hrow g hg).key, (hrow g' hg').key] at hk
    rw [h.unique g hg g' hg' ((hrow g hg).lease hl₁) ((hrow g' hg').lease hl₂) hk]

theorem owned_of_sublist (h : Owned workspaceKey db) (hs : ∀ g ∈ db'.goals, g ∈ db.goals) :
    Owned workspaceKey db' :=
  ⟨fun g hg => h.keys g (hs g hg), fun g hg g' hg' => h.unique g (hs g hg) g' (hs g' hg')⟩

theorem owned_insertGoal {env : Env workspaceKey} {id : String} {spec : GoalSpec}
    (h : Owned workspaceKey db) : Owned workspaceKey (insertGoal env id spec db) := by
  have hmem : ∀ {g}, g ∈ (insertGoal env id spec db).goals →
      g ∈ db.goals ∨ g = newGoal env id spec := fun hg => by
    simpa [insertGoal] using hg
  refine ⟨fun g hg => ?_, fun g hg g' hg' hl hl' => ?_⟩
  · rcases hmem hg with hg | rfl
    · exact h.keys g hg
    · rfl
  · rcases hmem hg with hg | rfl
    · rcases hmem hg' with hg' | rfl
      · exact h.unique g hg g' hg' hl hl'
      · exact absurd rfl hl'
    · exact absurd rfl hl

theorem owned_pauses {env : Env workspaceKey} (h : Owned workspaceKey db) (hp : Pauses env db db') :
    Owned workspaceKey db' := by
  induction hp with
  | refl => exact h
  | step _ _ _ _ _ ih =>
    refine owned_update ih rfl fun g _ _ => ?_
    exact ⟨rfl, rfl, id⟩

/-- **A grant finds no other lease on the project.** -/
theorem owned_granted {env : Env workspaceKey} {lease : Uuid} {goal : Goal}
    (hk : Keyed Goal.id db.goals) (h : Owned workspaceKey db) (hg : Grantable env goal db) :
    Owned workspaceKey (granted env lease goal db) := by
  have hkey : goal.workspaceKey = workspaceKey goal.spec.workspace := h.keys goal (goal_mem hg.row).1
  have hother : ∀ g ∈ db.goals, g.lease ≠ none → g.workspaceKey ≠ goal.workspaceKey :=
    fun g hgm hl hk' => hg.free ⟨g, hgm, hk'.trans hkey, hl⟩
  refine ⟨fun g hgm => ?_, fun g₁ hg₁ g₂ hg₂ hl₁ hl₂ he => ?_⟩
  · rcases mem_granted hk hg.row hgm with rfl | ⟨hgm, -⟩
    · exact hkey
    · exact h.keys g hgm
  · rcases mem_granted hk hg.row hg₁ with rfl | ⟨hg₁, -⟩ <;>
      rcases mem_granted hk hg.row hg₂ with rfl | ⟨hg₂, -⟩
    · rfl
    · exact absurd he.symm (hother g₂ hg₂ hl₂)
    · exact absurd he (hother g₁ hg₁ hl₁)
    · exact h.unique g₁ hg₁ g₂ hg₂ hl₁ hl₂ he

/-- **Every call keeps the projects apart.** -/
theorem owned_does {r : Except Err Reply} (hk : Keyed Goal.id w.db.goals) (h : Owned workspaceKey w.db)
    (hd : Does uuids w op r db') : Owned workspaceKey db' := by
  have hkept : ∀ {t : List Goal} {p : Goal → Prop} [DecidablePred p] {f : Goal → Goal},
      t = updateWhere p f w.db.goals → (∀ g, p g → Leaves workspaceKey g (f g)) →
      ∀ {db₁ : GoalDb}, db₁.goals = t → Owned workspaceKey db₁ := by
    intro t p _ f ht hf db₁ hdb
    exact owned_update h (hdb.trans ht) fun g _ hp => hf g hp
  cases hd with
  | failed => exact h
  | idle => exact h
  | create => exact owned_insertGoal h
  | @feedback env id text given row hrow hopen hnew =>
    refine owned_update h (addFeedback_goals ..) fun g _ _ => ?_
    obtain ⟨due, updated, state, he, -⟩ := fed_eq env row.state g
    rw [he]
    exact ⟨rfl, rfl, fun hl => hl⟩
  | pause hrow hopen => exact hkept rfl (fun g _ => by exact ⟨rfl, rfl, id⟩) rfl
  | stop hrow hopen => exact hkept rfl (fun g _ => by exact ⟨rfl, rfl, id⟩) rfl
  | resume hrow hr hs => exact hkept rfl (fun g _ => by exact ⟨rfl, rfl, id⟩) rfl
  | extend hrow hlease hopen hspec =>
    refine owned_update h (relimited_goals ..) fun g hg hid => ?_
    obtain rfl := eq_of_row hk hrow hg hid
    exact ⟨rfl, goalSpec_key hspec, id⟩
  | accept hrow hready hlease => exact hkept rfl (fun g _ => by exact ⟨rfl, rfl, id⟩) rfl
  | delete hrow hlease hidle => exact owned_of_sublist h fun g hg => (mem_deleteWhere.mp hg).1
  | unclaimed hp => exact owned_pauses h hp
  | claimed hp hg => exact owned_granted (keyed_pauses hk hp) (owned_pauses h hp) hg
  | attach hk' hheld => exact hkept rfl (fun g _ => by exact ⟨rfl, rfl, id⟩) rfl
  | refuse hk' hrow hlease hactive hover => exact hkept rfl (fun g _ => by exact ⟨rfl, rfl, id⟩) rfl
  | reserve hk' hrow hlease hactive hroom => exact hkept rfl (fun g _ => by exact ⟨rfl, rfl, id⟩) rfl
  | progress hk' hheld => exact hkept rfl (fun g _ => by exact ⟨rfl, rfl, id⟩) rfl
  | pending hk' hdb =>
    cases hdb
    exact hkept rfl (fun g _ => by exact ⟨rfl, rfl, id⟩) rfl
  | respond hrow hresponse => exact owned_of_sublist h fun g hg => hg
  | consume hk' hrow =>
    rcases delivered_goals .. with he | he
    · exact owned_of_sublist h fun g hg => he ▸ hg
    · exact owned_update h he fun g _ _ => ⟨rfl, rfl, id⟩
  | finish hk' hrow hlease =>
    exact hkept rfl (fun g _ => by exact ⟨rfl, rfl, fun hl => absurd rfl hl⟩) rfl
  | interactive hbusy => exact owned_of_sublist h fun g hg => hg
  | recover =>
    refine owned_update h (recovered_goals ..) fun g _ _ => ?_
    exact ⟨rfl, rfl, fun hl => absurd rfl hl⟩

/-! ### The two mechanisms together -/

/-- **One owner of each project.** -/
structure OneOwner (workspaceKey : String → String) (uuids : Uuids) (w : World) : Prop where
  leases : ∀ g ∈ w.db.goals, ∀ g' ∈ w.db.goals, g.lease ≠ none → g'.lease ≠ none →
    g.workspaceKey = g'.workspaceKey → g = g'
  claims : ∀ (env : Env workspaceKey) (identity : Option String) (goal : Goal),
    reply uuids w (.claim env identity) = .ok (.claimed (some goal)) →
    goal.workspaceKey = workspaceKey goal.spec.workspace ∧
    ∀ r ∈ w.db.interactive, r.key = goal.workspaceKey → r.busy = true →
      r.heartbeat ≤ env.now - seconds 10
  announcements : ∀ (env : Env workspaceKey) (workspace owner : String) (r : Reply),
    reply uuids w (.interactive env workspace owner true) = .ok r →
    (∀ g ∈ w.db.goals, g.workspaceKey = workspaceKey workspace → g.lease = none) ∧
    ∀ r ∈ w.db.interactive, r.key = workspaceKey workspace → r.owner ≠ owner → r.busy = true →
      r.heartbeat ≤ env.now - seconds 10

theorem pauses_interactive {env : Env workspaceKey} (hp : Pauses env db db') :
    db'.interactive = db.interactive := by
  induction hp with
  | refl => rfl
  | step _ _ _ _ _ ih => exact ih

theorem owned_reachable (h : Reachable (@next workspaceKey uuids) {} w) :
    w.db.Constraints ∧ Owned workspaceKey w.db := by
  refine inv_reachable (I := fun w : World => w.db.Constraints ∧ Owned workspaceKey w.db)
    (fun w op hI => ?_) ⟨empty_constraints, ⟨by simp, by simp⟩⟩ h
  exact ⟨constraints_result hI.1, owned_does hI.1.goals hI.2 (does_result hI.1.goals op)⟩

theorem one_owner (h : Reachable (@next workspaceKey uuids) {} w) :
    OneOwner workspaceKey uuids w := by
  obtain ⟨hc, howned⟩ := owned_reachable h
  refine ⟨howned.unique, fun env identity goal hr => ?_, fun env workspace owner r hr => ?_⟩
  · have hd := does_of_reply hc.goals hr
    generalize (next uuids w (.claim env identity)).db = db' at hd
    cases hd with
    | idle hi => cases hi
    | @claimed _ _ db₁ row hp hg =>
      have hkey : row.workspaceKey = workspaceKey row.spec.workspace :=
        (owned_pauses howned hp).keys row (goal_mem hg.row).1
      refine ⟨hkey, fun record hrec hk hb => ?_⟩
      by_contra hlate
      refine hg.quiet ⟨record, ?_, not_le.mp hlate, hb⟩
      rw [pauses_interactive hp]
      exact (lookup_eq_some_iff hc.interactive).mpr ⟨hrec, hk.trans hkey⟩
  · have hd := does_of_reply hc.goals hr
    generalize (next uuids w (.interactive env workspace owner true)).db = db' at hd
    cases hd with
    | idle hi => cases hi
    | interactive hbusy =>
      obtain ⟨hfree, hquiet⟩ := hbusy rfl
      refine ⟨fun g hg hk => ?_, fun record hrec hk ho hb => ?_⟩
      · by_contra hl
        exact hfree ⟨g, hg, hk, hl⟩
      · by_contra hlate
        refine hquiet ⟨record, ?_, ho, hb, not_le.mp hlate⟩
        exact (lookup_eq_some_iff hc.interactive).mpr ⟨hrec, hk⟩

theorem one_owner_of_cycle : OneOwner id inOrder
    (run (next inOrder) {} [.action (envAt 1) (.create fix (some "a")), .claim (envAt 2) none]) ∧
    ∃ g ∈ (run (next inOrder) {}
      [.action (envAt 1) (.create fix (some "a")), .claim (envAt 2) none]).db.goals, g.lease ≠ none :=
  ⟨one_owner ⟨_, rfl⟩, by decide⟩

end Smara.Goals.Owner
