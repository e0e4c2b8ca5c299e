import Smara.Server.Proposals

/-! # The policy of tool calls

Every tool call that the model makes is allowed, denied or put before the owner, by its name, its arguments and the
session. A session that was started by a counterparty's message is untrusted: it may record evidence and propose an
adjustment, both for its own party.

* `tierOf`, `preToolUse`: the policy.
* `untrusted_verdict`: what it lets an untrusted session do. -/

namespace Smara.Server.Policy

open Server.Schema Server.Proposals

/-! ### Arguments -/

/-- What `json.loads` gives; of a number, its value and its text. -/
inductive Json
  | null
  | bool (b : Bool)
  | num (q : ℚ) (text : String)
  /-- `NaN` and the infinities -/
  | nonfinite (text : String)
  | str (s : String)
  | arr (items : List Json)
  | obj (members : List (String × Json))

def Json.isObj : Json → Bool
  | .obj _ => true
  | _ => false

/-- `args.get(key)`; the last member with a key counts. -/
def Json.get? (key : String) : Json → Option Json
  | .obj members => (members.reverse.find? fun m => m.1 = key).map Prod.snd
  | _ => none

def isOneOf (texts : List String) : Option Json → Bool
  | some (.str s) => texts.contains s
  | _ => false

/-- A set may be asked for the value. -/
def hashable : Option Json → Bool
  | some (.arr _) => false
  | some (.obj _) => false
  | _ => true

/-! ### Sessions -/

structure Ctx extends SessionCtx where
  /-- the files of the event that has started the session -/
  files : List String := []
  /-- the sites on which the owner lets the session act -/
  grants : List String := []
  host : String := ""
  /-- the browser is the owner's own -/
  onDevice : Bool := false
  /-- address and title of the page -/
  page : String := ""

/-- What the regular expressions and the page say. -/
structure Rules where
  sensitiveStep : Ctx → Json → Bool
  submitsTypedText : Ctx → Json → Bool
  sensitivePage : String → Bool
  approvalText : String → Json → String
  strip : String → String
  quote : String → String

inductive Verdict
  | allow | deny | approve
  deriving DecidableEq

structure Decision where
  verdict : Verdict
  tier : String := ""
  reason : String := ""
  card : String := ""

/-! ### The policy -/

def toolNames : List String :=
  ["query_ledger_sql", "web_search", "get_current_time", "resolve_continuum_memory", "write_continuum_evidence",
    "schedule_followup", "list_followups", "cancel_followup", "check_gstin", "build_payment_request",
    "send_file_to_owner", "make_document", "load_skill", "read_attachment", "inspect_and_import_file", "browser_step",
    "hand_off_to_owner", "propose_ledger_adjustment", "run_python", "pc_files", "send_whatsapp_message"]

def untrustedAllowed : List String := ["write_continuum_evidence", "propose_ledger_adjustment"]

def browserRead : List String := ["navigate", "read", "text", "scroll", "back", "wait", "hover"]

def browserAct : List String := ["click", "fill", "press", "select"]

def readers : List String :=
  ["query_ledger_sql", "resolve_continuum_memory", "run_python", "get_current_time", "check_gstin",
    "build_payment_request", "list_followups", "web_search", "read_attachment", "make_document", "load_skill"]

/-- **`tier_of`**; it raises for a browser action that is no key of a set. -/
def tierOf (name : String) (args : Json) : Option String :=
  if name ∈ readers then some "T0"
  else if name ∈ ["schedule_followup", "cancel_followup", "send_file_to_owner"] then some "T1"
  else if name = "inspect_and_import_file" then some (if isOneOf ["import"] (args.get? "mode") then "T1" else "T0")
  else if name = "write_continuum_evidence" then some "T1"
  else if name = "hand_off_to_owner" then some "T2"
  else if name = "browser_step" then
    if hashable (args.get? "action") then some (if isOneOf browserRead (args.get? "action") then "T0" else "T2")
    else none
  else if name = "send_whatsapp_message" then some (if isOneOf ["owner"] (args.get? "to") then "T1" else "T2")
  else if name = "pc_files" then some (if isOneOf ["write"] (args.get? "action") then "T2" else "T0")
  else if name = "propose_ledger_adjustment" then some "T3"
  else some "?"

/-- The party that the arguments name is that of the session, or none is named. -/
def ownParty (ctx : Ctx) (args : Json) : Bool :=
  match args.get? "party_id", ctx.partyId with
  | none, _ => true
  | some .null, none => true
  | some (.str p), some q => p = q
  | _, _ => false

/-- The references of `run_python` are files of the session. -/
def refsInFiles (ctx : Ctx) : Option Json → Bool
  | none => true
  | some .null => true
  | some (.bool b) => !b
  | some (.num q _) => q = 0
  | some (.nonfinite _) => false
  | some (.str s) => s = ""
  | some (.arr items) => items.all fun r => isOneOf ctx.files (some r)
  | some (.obj members) => members.isEmpty

/-- The code of `run_python` may be run. -/
def codeFits (rules : Rules) : Option Json → Bool
  | some (.str s) => rules.strip s ≠ "" && s.length ≤ 20000
  | _ => false

def onlyAttached : String := "only files attached to this conversation can be opened"

/-- What a tool is denied for, by its arguments. -/
def denial (rules : Rules) (ctx : Ctx) (name tier : String) (args : Json) : Option String :=
  if name = "browser_step" then
    if isOneOf (browserRead ++ browserAct) (args.get? "action") then none else some "unsupported browser action"
  else if name = "pc_files" then
    if ctx.trust ≠ .trusted then some "only a conversation with the owner can reach the files on their PC"
    else if isOneOf ["list", "read", "write"] (args.get? "action") then none
    else some "action must be list, read or write"
  else if name = "read_attachment" then
    if isOneOf ctx.files (args.get? "file_ref") then none else some onlyAttached
  else if name = "inspect_and_import_file" then
    if !isOneOf ctx.files (args.get? "file_ref") then some onlyAttached
    else if tier = "T1" ∧ ctx.trust ≠ .trusted then some "only the owner's own uploads can be imported"
    else none
  else if name = "send_file_to_owner" then
    if isOneOf (ctx.files.filter fun f => f.startsWith "sandbox:") (args.get? "file_ref") then none
    else some "only files you created with run_python in this conversation can be sent"
  else if name = "run_python" then
    if !refsInFiles ctx (args.get? "file_refs") then some onlyAttached
    else if codeFits rules (args.get? "code") then none
    else some "code must be a non-empty string under 20,000 characters"
  else if name = "hand_off_to_owner" ∧ ctx.trust ≠ .trusted then
    some "only a conversation with the owner can hand a step to them"
  else none

/-- The browser steps that the owner need not approve. -/
def autonomous (rules : Rules) (ctx : Ctx) (name : String) (args : Json) : Option Decision :=
  if name = "browser_step" ∧ ctx.trust = .trusted ∧ !rules.sensitiveStep ctx args ∧
      !rules.submitsTypedText ctx args ∧ !rules.sensitivePage ctx.page then
    if ctx.onDevice then
      some { verdict := .allow, tier := "T2a", reason := "autonomous on the owner's own browser" }
    else if ctx.host ≠ "" ∧ ctx.host ∈ ctx.grants then
      some { verdict := .allow, tier := "T2g", reason := "the owner allowed this site for this task" }
    else none
  else none

/-- The decision about a tool of a tier. -/
def decideTier (rules : Rules) (ctx : Ctx) (name : String) (args : Json) (tier : String) : Decision :=
  if ctx.trust = .untrusted ∧ name ∉ untrustedAllowed then
    { verdict := .deny, tier, reason := "this session was started by a counterparty and may only record " ++
        "evidence or propose an adjustment for the owner to review" }
  else if ctx.trust = .untrusted ∧ !ownParty ctx args then
    { verdict := .deny, tier, reason := "a counterparty session may only touch its own party" }
  else
    match denial rules ctx name tier args with
    | some reason => { verdict := .deny, tier, reason }
    | none =>
      if tier = "T0" ∨ tier = "T1" then { verdict := .allow, tier }
      else
        match autonomous rules ctx name args with
        | some d => d
        | none => { verdict := .approve, tier, card := rules.approvalText name args }

/-- **`pre_tool_use`**; it raises where `tier_of` does. -/
def preToolUse (rules : Rules) (ctx : Ctx) (name : String) (args : Json) : Option Decision :=
  if name ∉ toolNames then some { verdict := .deny, reason := "unknown tool " ++ rules.quote name }
  else if !args.isObj then some { verdict := .deny, reason := "arguments must be a JSON object" }
  else (tierOf name args).map (decideTier rules ctx name args)

/-- **What an untrusted session may do**: record evidence, and propose an adjustment that the owner approves, both
without naming another party. -/
theorem untrusted_verdict {rules : Rules} {ctx : Ctx} {name : String} {args : Json} {d : Decision}
    (h : ctx.trust = .untrusted) (hd : preToolUse rules ctx name args = some d) : d.verdict = .deny ∨
      ownParty ctx args = true ∧ (name = "write_continuum_evidence" ∧ d.verdict = .allow ∨
        name = "propose_ledger_adjustment" ∧ d.verdict = .approve) := by
  unfold preToolUse at hd
  by_cases hknown : name ∉ toolNames
  · rw [if_pos hknown] at hd
    cases hd
    exact Or.inl rfl
  rw [if_neg hknown] at hd
  by_cases hobj : (!args.isObj) = true
  · rw [if_pos hobj] at hd
    cases hd
    exact Or.inl rfl
  rw [if_neg hobj] at hd
  obtain ⟨tier, htier, rfl⟩ := Option.map_eq_some_iff.mp hd
  unfold decideTier
  by_cases hallowed : ctx.trust = .untrusted ∧ name ∉ untrustedAllowed
  · rw [if_pos hallowed]
    exact Or.inl rfl
  rw [if_neg hallowed]
  by_cases hown : ownParty ctx args = true
  · rw [if_neg (by simp [hown])]
    refine Or.inr ⟨hown, ?_⟩
    have hname : name ∈ untrustedAllowed := by
      by_contra hne
      exact hallowed ⟨h, hne⟩
    rcases List.mem_pair.mp hname with rfl | rfl
    · have htier : tier = "T1" := by simpa [tierOf, readers, eq_comm] using htier
      exact Or.inl ⟨rfl, by simp [denial, htier]⟩
    · have htier : tier = "T3" := by simpa [tierOf, readers, eq_comm] using htier
      exact Or.inr ⟨rfl, by simp [denial, autonomous, htier]⟩
  · rw [if_pos ⟨h, by simpa using hown⟩]
    exact Or.inl rfl

end Smara.Server.Policy
