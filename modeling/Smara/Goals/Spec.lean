import Smara.Goals.Schema

/-! # Goal specifications

`goal_spec`, the validation of what a goal is to do and of its limits, in the order of its checks.

* `goalSpec_key`: the folder of the result has the key of the folder that was requested.
* `goalSpec_limits`: the limits of the result are positive. -/

namespace Smara.Goals.Spec

open Lib.Transaction Goals.Schema

variable {workspaceKey : String → String}

/-- What `goal_spec` reads of a request. A member that is absent is `none`. -/
structure SpecRequest where
  workspace : String := ""
  objective : Option String := none
  successCriteria : Option String := none
  profileId : Option String := none
  sandbox : Option String := none
  originThreadId : Option String := none
  taskKind : Option String := none
  requirements : Option (List Requirement) := none
  minSources : Option ℤ := none
  timeSensitive : Option Bool := none
  maxOutputTokens : Option ℤ := none
  maxCycles : Option ℤ := none
  maxRequests : Option ℤ := none
  maxTokenEstimate : Option ℤ := none
  cycleSeconds : Option ℤ := none
  intervalSeconds : Option ℤ := none
  options : Option ProjectOptions := none

def Sandbox.text : Sandbox → String
  | .readOnly => "read-only"
  | .workspaceWrite => "workspace-write"

def TaskKind.text : TaskKind → String
  | .general => "general"
  | .coding => "coding"
  | .research => "research"
  | .mixed => "mixed"

/-- `{**spec, "options": options}` -/
def request (spec : GoalSpec) : SpecRequest where
  workspace := spec.workspace
  objective := some spec.objective
  successCriteria := some spec.successCriteria
  profileId := some spec.profileId
  sandbox := some (Sandbox.text spec.sandbox)
  originThreadId := some spec.originThreadId
  taskKind := some (TaskKind.text spec.taskKind)
  requirements := some spec.requirements
  minSources := some spec.minSources
  timeSensitive := some spec.timeSensitive
  maxOutputTokens := spec.maxOutputTokens
  maxCycles := some spec.maxCycles
  maxRequests := some spec.maxRequests
  maxTokenEstimate := some spec.maxTokenEstimate
  cycleSeconds := some spec.cycleSeconds
  intervalSeconds := some spec.intervalSeconds
  options := some spec.options

/-! ### The checks -/

/-- `if not p: raise ValueError(message)` -/
def require (p : Prop) [Decidable p] (message : String) : Except Err Unit :=
  if p then .ok () else .error (.valueError message)

/-- `str.isspace` of a character -/
def isSpace (c : Char) : Bool :=
  (9 ≤ c.val && c.val ≤ 13) || (28 ≤ c.val && c.val ≤ 32) || c.val == 0x85 || c.val == 0xA0 ||
    c.val == 0x1680 || (0x2000 ≤ c.val && c.val ≤ 0x200A) || c.val == 0x2028 || c.val == 0x2029 ||
    c.val == 0x202F || c.val == 0x205F || c.val == 0x3000

def strip (s : String) : String :=
  String.ofList ((s.toList.dropWhile isSpace).reverse.dropWhile isSpace).reverse

def projectFolder (host : Host workspaceKey) (path : String) : Except Err String := do
  require (host.isAbsolute path) "Choose an absolute project folder"
  match host.resolve path with
  | none => .error .osError
  | some root =>
    require (host.isDir root) "Choose an existing project folder"
    return root

/-- One of the texts of a request; `words` is the name of the field in words. -/
def textField (words : String) (limit : ℕ) (value : Option String) : Except Err String := do
  let text := value.getD ""
  require (strip text ≠ "" ∧ text.length ≤ limit)
    ("Provide " ++ words ++ " (up to " ++ toString limit ++ " characters)")
  return strip text

def sandboxField (value : Option String) : Except Err Sandbox :=
  match value with
  | none | some "read-only" => .ok .readOnly
  | some "workspace-write" => .ok .workspaceWrite
  | some _ => .error (.valueError "Choose read-only or project editing access")

def taskKindField (value : Option String) : Except Err TaskKind :=
  match value with
  | none | some "general" => .ok .general
  | some "coding" => .ok .coding
  | some "research" => .ok .research
  | some "mixed" => .ok .mixed
  | some _ => .error (.valueError "Choose general, coding, research or mixed outcome checks")

/-- `[a-zA-Z0-9_-]{1,48}` -/
def RequirementId (id : String) : Prop :=
  1 ≤ id.length ∧ id.length ≤ 48 ∧ id.toList.all fun c => c.isAlphanum || c == '_' || c == '-'

instance (id : String) : Decidable (RequirementId id) := inferInstanceAs (Decidable (_ ∧ _ ∧ _))

def ValidRequirements (rs : List Requirement) : Prop :=
  rs.length ≤ 20 ∧ (∀ r ∈ rs, RequirementId r.id ∧ strip r.description ≠ "" ∧
    r.description.length ≤ 2000) ∧ (rs.map Requirement.id).Nodup

instance (rs : List Requirement) : Decidable (ValidRequirements rs) :=
  inferInstanceAs (Decidable (_ ∧ _ ∧ _))

def numberField (name : String) (default lower upper : ℤ) (value : Option ℤ) : Except Err ℤ := do
  let number := value.getD default
  require (lower ≤ number ∧ number ≤ upper)
    (name ++ " must be " ++ toString lower ++ ".." ++ toString upper)
  return number

/-- `project_options(value.get("options") or {})` -/
def optionsField (host : Host workspaceKey) (value : Option ProjectOptions) :
    Except Err ProjectOptions :=
  let options := value.getD ⟨false, false, []⟩
  match options.browserOrigins with
  | [] => .ok options
  | origins =>
    match host.configuredOrigins origins with
    | .error message => .error (.valueError message)
    | .ok () => .ok { options with browserOrigins := origins.reverse.dedup.reverse }

def goalSpec (host : Host workspaceKey) (value : SpecRequest) : Except Err GoalSpec := do
  let workspace ← projectFolder host value.workspace
  let objective ← textField "objective" 100000 value.objective
  let successCriteria ← textField "success criteria" 30000 value.successCriteria
  let profileId ← textField "profile id" 48 value.profileId
  let sandbox ← sandboxField value.sandbox
  let originThreadId := value.originThreadId.getD ""
  require (originThreadId.length ≤ 128 ∧ originThreadId.toList.all (32 ≤ ·.val))
    "Invalid conversation association"
  let taskKind ← taskKindField value.taskKind
  let requirements := value.requirements.getD []
  require (ValidRequirements requirements)
    "Provide up to 20 distinct outcome requirements with id and description"
  let minSources := value.minSources.getD 2
  require (1 ≤ minSources ∧ minSources ≤ 20) "Minimum sources must be 1..20"
  let timeSensitive := value.timeSensitive.getD (host.mentionsNow objective)
  require (∀ n ∈ value.maxOutputTokens, 256 ≤ n ∧ n ≤ 131072)
    "Explicit output token limit must be 256..131072, or omitted for the model default"
  let maxCycles ← numberField "max_cycles" 8 1 100 value.maxCycles
  let maxRequests ← numberField "max_requests" 30 1 500 value.maxRequests
  let maxTokenEstimate ← numberField "max_token_estimate" 500000 4096 20000000 value.maxTokenEstimate
  let cycleSeconds ← numberField "cycle_seconds" 900 10 3600 value.cycleSeconds
  let intervalSeconds ← numberField "interval_seconds" 30 0 86400 value.intervalSeconds
  let options ← optionsField host value.options
  return ⟨workspace, objective, successCriteria, profileId, sandbox, originThreadId, taskKind,
    requirements, minSources, timeSensitive, value.maxOutputTokens, maxCycles, maxRequests,
    maxTokenEstimate, cycleSeconds, intervalSeconds, options⟩

/-! ### What a specification satisfies -/

theorem require_ok {p : Prop} [Decidable p] {message : String} {u : Unit}
    (h : require p message = .ok u) : p := by
  unfold require at h
  split at h
  · assumption
  · cases h

theorem projectFolder_ok {host : Host workspaceKey} {path root : String}
    (h : projectFolder host path = .ok root) : host.resolve path = some root := by
  unfold projectFolder at h
  obtain ⟨_, -, h⟩ := bind_ok h
  split at h
  · cases h
  · next r hr =>
    obtain ⟨_, -, h⟩ := bind_ok h
    cases h
    exact hr

theorem numberField_ok {name : String} {default lower upper number : ℤ} {value : Option ℤ}
    (h : numberField name default lower upper value = .ok number) :
    number = value.getD default ∧ lower ≤ number ∧ number ≤ upper := by
  unfold numberField at h
  obtain ⟨_, hr, h⟩ := bind_ok h
  cases h
  exact ⟨rfl, require_ok hr⟩

structure Accepted (host : Host workspaceKey) (value : SpecRequest) (spec : GoalSpec) : Prop where
  workspace : host.resolve value.workspace = some spec.workspace
  maxCycles : spec.maxCycles = value.maxCycles.getD 8 ∧ 1 ≤ spec.maxCycles ∧ spec.maxCycles ≤ 100
  maxRequests : spec.maxRequests = value.maxRequests.getD 30 ∧ 1 ≤ spec.maxRequests ∧
    spec.maxRequests ≤ 500
  maxTokenEstimate : spec.maxTokenEstimate = value.maxTokenEstimate.getD 500000 ∧
    4096 ≤ spec.maxTokenEstimate ∧ spec.maxTokenEstimate ≤ 20000000

theorem goalSpec_ok {host : Host workspaceKey} {value : SpecRequest} {spec : GoalSpec}
    (h : goalSpec host value = .ok spec) : Accepted host value spec := by
  unfold goalSpec at h
  obtain ⟨workspace, hworkspace, h⟩ := bind_ok h
  obtain ⟨_, -, h⟩ := bind_ok h
  obtain ⟨_, -, h⟩ := bind_ok h
  obtain ⟨_, -, h⟩ := bind_ok h
  obtain ⟨_, -, h⟩ := bind_ok h
  obtain ⟨_, -, h⟩ := bind_ok h
  obtain ⟨_, -, h⟩ := bind_ok h
  obtain ⟨_, -, h⟩ := bind_ok h
  obtain ⟨_, -, h⟩ := bind_ok h
  obtain ⟨_, -, h⟩ := bind_ok h
  obtain ⟨maxCycles, hcycles, h⟩ := bind_ok h
  obtain ⟨maxRequests, hrequests, h⟩ := bind_ok h
  obtain ⟨maxTokenEstimate, htokens, h⟩ := bind_ok h
  obtain ⟨_, -, h⟩ := bind_ok h
  obtain ⟨_, -, h⟩ := bind_ok h
  obtain ⟨_, -, h⟩ := bind_ok h
  cases h
  exact ⟨projectFolder_ok hworkspace, numberField_ok hcycles, numberField_ok hrequests,
    numberField_ok htokens⟩

theorem goalSpec_key {host : Host workspaceKey} {value : SpecRequest} {spec : GoalSpec}
    (h : goalSpec host value = .ok spec) :
    workspaceKey spec.workspace = workspaceKey value.workspace :=
  host.key_resolve (goalSpec_ok h).workspace

end Smara.Goals.Spec
