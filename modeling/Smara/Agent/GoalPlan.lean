import Smara.Lib.DepthFirst
import Smara.Lib.PyText

/-! # The plan of a goal

`GoalPlanner` takes the steps that a model proposes, passes over what is no step, and refuses the plan where a
dependency is no step or the dependencies come back. So the plans accepted are those whose dependencies are
known and acyclic (`validateModelPlan_iff`). -/

namespace Smara.Agent.GoalPlan

open Relation (TransGen)
open Lib.Acyclic (Acyclic)
open Lib.DepthFirst Lib.PyText

/-- `status` of a step -/
inductive StepStatus
  | pending | running | completed | failed | skipped
  deriving DecidableEq, Repr

/-- The object that an executor returns, as far as the runner reads it: `ok` and `success` where they are
`True` or `False`, `error` and `message` where they count as true, `status`, `exit_code` where it is an integer,
`report_path`, and whether `json.dumps` takes the object. -/
structure Output where
  ok : Option Bool := none
  success : Option Bool := none
  error : Option String := none
  message : Option String := none
  status : Option String := none
  exitCode : Option ℤ := none
  reportPath : Option String := none
  serializable : Bool := true
  deriving DecidableEq, Repr

/-- `GoalStep` -/
structure Step where
  id : String
  title : String
  objective : String
  capability : String
  payload : String
  dependencies : List String := []
  status : StepStatus := .pending
  evidence : Option Output := none
  error : Option String := none
  deriving DecidableEq, Repr

def capabilities : List String :=
  ["deep_research", "local_file_read", "local_file_write", "local_terminal", "local_graph", "local_integration",
    "local_refactor", "local_test_fixer", "local_git"]

/-- A dictionary that the model proposes as a step: the texts of its `dependencies`, if they are a list, and its
`payload` in JSON. -/
structure RawStep where
  id : Option Value := none
  capability : Option Value := none
  title : Option Value := none
  objective : Option Value := none
  dependencies : Option (List String) := none
  payload : String := "\x7b\x7d"
  deriving DecidableEq, Repr

/-- What `plan` raises. -/
inductive PlanError
  | emptyObjective | noValidSteps | unknownDependency | dependencyCycle
  deriving DecidableEq, Repr

/-- `str(value or default)` -/
def orText (value : Option Value) (default : String) : String :=
  match value.filter Value.truth with
  | some v => v.text
  | none => default

def stepOf (objective : String) (index : ℕ) (raw : RawStep) : Step where
  id := strip (orText raw.id s!"step_{index}")
  title := strip (orText raw.title (orText raw.objective s!"Step {index}"))
  objective := orText raw.objective objective
  capability := strip (orText raw.capability "")
  payload := raw.payload
  dependencies := ((raw.dependencies.getD []).map strip).filter (· ≠ "")

/-- The first loop of `_validate_model_plan`; `none` stands for what is no dictionary. -/
def collect (objective : String) (index : ℕ) (ids : List String) : List (Option RawStep) → List Step
  | [] => []
  | none :: rest => collect objective (index + 1) ids rest
  | some raw :: rest =>
    let step := stepOf objective index raw
    if step.id = "" ∨ step.id ∈ ids ∨ step.capability ∉ capabilities then collect objective (index + 1) ids rest
    else step :: collect objective (index + 1) (step.id :: ids) rest

def graph (steps : List Step) (id : String) : List String :=
  ((steps.find? (·.id = id)).map Step.dependencies).getD []

/-- `_validate_model_plan`, of a list -/
def validateModelPlan (proposed : List (Option RawStep)) (objective : String) : Except PlanError (List Step) :=
  let steps := collect objective 1 [] proposed
  let ids := steps.map Step.id
  if steps = [] then .ok []
  else if steps.any fun step => step.dependencies.any (· ∉ ids) then .error .unknownDependency
  else match visitAll (graph steps) ids with
    | none => .error .dependencyCycle
    | some _ => .ok steps

/-- The steps of a goal without a model -/
def scaffold (objective : String) : List Step :=
  [{ id := "step_1", title := "Inspect workspace",
     objective := s!"Inspect the workspace and gather evidence for: {objective}", capability := "local_file_read",
     payload := "workspace_snapshot" },
   { id := "step_2", title := "Execute objective",
     objective := s!"Execute the approved actions required by: {objective}", capability := "local_terminal",
     payload := "objective", dependencies := ["step_1"] },
   { id := "step_3", title := "Verify outcome",
     objective := s!"Verify the deliverables and evidence for: {objective}", capability := "local_file_read",
     payload := "workspace_snapshot", dependencies := ["step_2"] }]

/-- `plan`, with what the model proposes, if there is one -/
def plan (objective : String) (proposed : Option (List (Option RawStep))) : Except PlanError (List Step) :=
  if strip objective = "" then .error .emptyObjective
  else match proposed with
    | none => .ok (scaffold objective)
    | some proposed =>
      (validateModelPlan proposed (strip objective)).bind fun steps =>
        if steps = [] then .error .noValidSteps else .ok steps

/-! ## What is accepted -/

def Known (steps : List Step) : Prop := ∀ s ∈ steps, ∀ d ∈ s.dependencies, d ∈ steps.map Step.id

/-- `a` is a dependency of `b`. -/
def DependsOn (steps : List Step) (a b : String) : Prop := ∃ s ∈ steps, s.id = b ∧ a ∈ s.dependencies

theorem collect_ids (objective : String) (index : ℕ) (ids : List String) (proposed : List (Option RawStep)) :
    ((collect objective index ids proposed).map Step.id).Nodup ∧
      ∀ s ∈ collect objective index ids proposed, s.id ∉ ids := by
  induction proposed generalizing index ids with
  | nil => simp [collect]
  | cons raw rest ih =>
    cases raw with
    | none => exact ih (index + 1) ids
    | some raw =>
      rw [collect]
      split_ifs with h
      · exact ih (index + 1) ids
      · obtain ⟨hnodup, hnew⟩ := ih (index + 1) ((stepOf objective index raw).id :: ids)
        push Not at h
        constructor
        · refine List.nodup_cons.mpr ⟨fun hmem => ?_, hnodup⟩
          obtain ⟨s, hs, hid⟩ := List.mem_map.mp hmem
          exact hnew s hs (by simp [hid])
        · intro s hs
          rcases List.mem_cons.mp hs with rfl | hs
          · exact h.2.1
          · exact fun hid => hnew s hs (List.mem_cons_of_mem _ hid)

theorem mem_graph {steps : List Step} (hunique : (steps.map Step.id).Nodup) {a b : String} :
    a ∈ graph steps b ↔ DependsOn steps a b := by
  constructor
  · intro h
    unfold graph at h
    cases hfind : steps.find? (·.id = b) with
    | none => simp [hfind] at h
    | some s =>
      rw [hfind] at h
      exact ⟨s, List.mem_of_find?_eq_some hfind, by simpa using List.find?_some hfind, h⟩
  · rintro ⟨s, hs, rfl, ha⟩
    have hfind : steps.find? (·.id = s.id) = some s := by
      obtain ⟨t, ht⟩ := Option.isSome_iff_exists.mp
        (List.find?_isSome.mpr ⟨s, hs, by simp⟩ : (steps.find? (·.id = s.id)).isSome)
      have hid : t.id = s.id := by simpa using List.find?_some ht
      rw [ht, List.inj_on_of_nodup_map hunique (List.mem_of_find?_eq_some ht) hs hid]
    rw [graph, hfind]
    exact ha

/-- **The plans accepted** are those whose dependencies are known and acyclic. -/
theorem validateModelPlan_iff (proposed : List (Option RawStep)) (objective : String) :
    validateModelPlan proposed objective = .ok (collect objective 1 [] proposed) ↔
      Known (collect objective 1 [] proposed) ∧ Acyclic (DependsOn (collect objective 1 [] proposed)) := by
  have hunique := (collect_ids objective 1 [] proposed).1
  rw [validateModelPlan]
  generalize collect objective 1 [] proposed = steps at hunique ⊢
  have hrel : (fun a b => a ∈ graph steps b) = DependsOn steps := by
    funext a b
    exact propext (mem_graph hunique)
  by_cases hsome : steps = []
  · subst hsome
    have hacyclic : Acyclic (DependsOn []) := by
      intro n hn
      obtain ⟨m, -, s, hs, -⟩ := TransGen.tail'_iff.mp hn
      cases hs
    exact iff_of_true rfl ⟨fun s hs => absurd hs List.not_mem_nil, hacyclic⟩
  rw [if_neg hsome]
  by_cases hknown : Known steps
  · have hall : ¬ steps.any (fun step => step.dependencies.any (· ∉ steps.map Step.id)) := by
      intro hany
      obtain ⟨s, hs, hdeps⟩ := List.any_eq_true.mp hany
      obtain ⟨d, hd, hout⟩ := List.any_eq_true.mp hdeps
      exact of_decide_eq_true hout (hknown s hs d hd)
    have hclosed : ∀ n ∈ steps.map Step.id, graph steps n ⊆ steps.map Step.id := by
      intro n _ d hd
      obtain ⟨s, hs, -, hdep⟩ := (mem_graph hunique).mp hd
      exact hknown s hs d hdep
    have hsearch := visitAll_isSome_iff hclosed
    rw [hrel] at hsearch
    -- a cycle goes through a step
    have hcycle : Acyclic (DependsOn steps) ↔ ∀ n ∈ steps.map Step.id, ¬ TransGen (DependsOn steps) n n := by
      constructor
      · exact fun h n _ => h n
      · intro h n hn
        obtain ⟨m, -, s, hs, rfl, -⟩ := TransGen.tail'_iff.mp hn
        exact h s.id (List.mem_map_of_mem hs) hn
    rw [if_neg hall, hcycle, ← hsearch, and_iff_right hknown]
    cases visitAll (graph steps) (steps.map Step.id) with
    | none => simp
    | some visited => simp
  · have hany : steps.any fun step => step.dependencies.any (· ∉ steps.map Step.id) := by
      unfold Known at hknown
      push Not at hknown
      obtain ⟨s, hs, d, hd, hout⟩ := hknown
      exact List.any_eq_true.mpr ⟨s, hs, List.any_eq_true.mpr ⟨d, hd, decide_eq_true hout⟩⟩
    rw [if_pos hany]
    simp [hknown]

theorem evidence_collect {objective : String} {index : ℕ} {ids : List String} {proposed : List (Option RawStep)}
    {s : Step} (hs : s ∈ collect objective index ids proposed) : s.evidence = none := by
  induction proposed generalizing index ids with
  | nil => simp [collect] at hs
  | cons raw rest ih =>
    cases raw with
    | none => exact ih hs
    | some raw =>
      rw [collect] at hs
      split_ifs at hs
      · exact ih hs
      · rcases List.mem_cons.mp hs with rfl | hs
        · rfl
        · exact ih hs

theorem plan_cases {objective : String} {proposed : Option (List (Option RawStep))} {steps : List Step}
    (h : plan objective proposed = .ok steps) :
    steps = scaffold objective ∨ ∃ raws, steps = collect (strip objective) 1 [] raws := by
  unfold plan at h
  split_ifs at h
  cases proposed with
  | none => exact Or.inl (Except.ok.inj h).symm
  | some proposed =>
    refine Or.inr ⟨proposed, ?_⟩
    simp only [validateModelPlan] at h
    generalize collect (strip objective) 1 [] proposed = found at h ⊢
    split_ifs at h with hnone hunknown
    · cases h
    · cases h
    · cases hvisit : visitAll (graph found) (found.map Step.id) with
      | none =>
        rw [hvisit] at h
        cases h
      | some visited =>
        rw [hvisit] at h
        simp only [Except.bind, if_neg hnone] at h
        exact (Except.ok.inj h).symm

theorem plan_unique {objective : String} {proposed : Option (List (Option RawStep))} {steps : List Step}
    (h : plan objective proposed = .ok steps) : (steps.map Step.id).Nodup := by
  rcases plan_cases h with rfl | ⟨raws, rfl⟩
  · simp [scaffold]
  · exact (collect_ids (strip objective) 1 [] raws).1

theorem plan_evidence {objective : String} {proposed : Option (List (Option RawStep))} {steps : List Step}
    (h : plan objective proposed = .ok steps) : ∀ s ∈ steps, s.evidence = none := by
  rcases plan_cases h with rfl | ⟨raws, rfl⟩
  · simp [scaffold]
  · exact fun s hs => evidence_collect hs

end Smara.Agent.GoalPlan
