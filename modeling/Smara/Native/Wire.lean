import Mathlib.Data.List.Nodup

/-! # The wire between the agent and a chat model

The adapter translates a request of the agent into a request for a chat model, which knows tools by one name: an alias
of namespace and name. The calls of the model go back under the names of the agent, and return in the next request.

* `translateRequest`: the tools and the messages of a request.
* `responseTool`: the item of a call of the model.
* `calls_survive`: aliases are distinct, a call comes back as it was, and no item of the input is lost. -/

namespace Smara.Native.Wire

/-! ### Tools -/

inductive ToolKind
  | function
  | custom
  deriving DecidableEq

/-- An entry of the mapping. -/
structure ToolSpec where
  kind : ToolKind
  name : String
  space : Option String
  deriving DecidableEq

/-- A value in an object: a text, or another value as JSON. -/
inductive Value
  | text (s : String)
  | other (json : String)
  deriving DecidableEq

/-- What `json.loads` returns: an object, whose keys are distinct, or another value. -/
inductive Loaded
  | object (fields : List (String × Value))
  | other (json : String)
  deriving DecidableEq

/-- The libraries. -/
structure Host where
  /-- `hashlib.sha256(raw.encode()).hexdigest()` -/
  sha256 : String → String
  loads : String → Option Loaded
  /-- `json.dumps({"input": input})` -/
  dumpsInput : String → String
  loads_dumpsInput : ∀ input, loads (dumpsInput input) = some (.object [("input", .text input)])
  /-- `research_tool` -/
  research : String → Bool

variable (host : Host)

/-- A character that needs no alias. -/
def plain (c : Char) : Bool := c.toNat < 128 && (c.isAlphanum || c = '_' || c = '-')

def raw (space : Option String) (name : String) : String :=
  match space with
  | some space => if space = "" then name else space ++ "__" ++ name
  | none => name

/-- `_alias` -/
def aliasOf (space : Option String) (name : String) : String :=
  if (raw space name).length ≤ 64 ∧ (raw space name).toList.all plain then raw space name
  else "tool_" ++ String.ofList ((host.sha256 (raw space name)).toList.take 40)

/-- A tool of a request. The parameters are JSON. -/
inductive Spec
  | function (name description parameters : String) (strict : Option Bool)
  | custom (name description : String) (grammar : Option String)
  | group (name : String) (tools : List Spec)
  | hosted (kind : String)

/-- A tool as the chat model sees it. -/
structure Function where
  name : String
  description : String
  parameters : String
  strict : Option Bool

structure Registry where
  mapping : List (String × ToolSpec) := []
  functions : List Function := []

/-- The parameters of a custom tool. -/
def inputSchema : String :=
  "\x7b\"type\": \"object\", \"properties\": \x7b\"input\": \x7b\"type\": \"string\"\x7d\x7d, \"required\": [\"input\"], \"additionalProperties\": false\x7d"

def customDescription (description : String) (grammar : Option String) : String :=
  description ++ "\nReturn the exact freeform tool input in the input field." ++
    match grammar with
    | some grammar => if grammar = "" then "" else "\nTool input grammar:\n" ++ grammar
    | none => ""

/-- An entry of the mapping, unless its alias is taken. -/
def register (spec : ToolSpec) (description parameters : String) (strict : Option Bool) (reg : Registry) : Option Registry :=
  if aliasOf host spec.space spec.name ∈ reg.mapping.map Prod.fst then none
  else some {
    mapping := reg.mapping ++ [(aliasOf host spec.space spec.name, spec)]
    functions := reg.functions ++ [⟨aliasOf host spec.space spec.name, description, parameters, strict⟩] }

mutual

def tool (space : Option String) : Spec → Registry → Option Registry
  | .function name description parameters strict, reg => register host ⟨.function, name, space⟩ description parameters strict reg
  | .custom name description grammar, reg =>
    register host ⟨.custom, name, space⟩ (customDescription description grammar) inputSchema none reg
  | .group name children, reg => tools (some name) children reg
  | .hosted _, _ => none

def tools (space : Option String) : List Spec → Registry → Option Registry
  | [], reg => some reg
  | spec :: rest, reg => (tool space spec reg).bind (tools space rest)

end

/-! ### Messages -/

inductive Part
  | text (text : String)
  | image (url : String)
  | other (kind : String)

/-- The content of a message of the input. -/
inductive Content
  | text (text : String)
  | parts (parts : List Part)
  | invalid

inductive WirePart
  | text (text : String)
  | image (url : String)
  deriving DecidableEq

inductive WireContent
  | text (text : String)
  | parts (parts : List WirePart)
  deriving DecidableEq

def Part.wire : Part → Option WirePart
  | .text s => some (.text s)
  | .image url => some (.image url)
  | .other _ => none

def content : Content → Option WireContent
  | .text text => some (.text text)
  | .parts parts => (parts.mapM Part.wire).map .parts
  | .invalid => none

/-- A call, with the alias of its tool. -/
structure Call where
  id : String
  name : String
  arguments : String
  deriving DecidableEq

inductive Message
  | plain (role : String) (content : WireContent)
  | assistant (toolCalls : List Call)
  | tool (callId : String) (content : String)
  deriving DecidableEq

/-- An item of the input. The output of a call is a text, or JSON. -/
inductive InputItem
  | message (role : String) (content : Content)
  | functionCall (callId name : String) (space : Option String) (arguments : String)
  | customToolCall (callId name : String) (space : Option String) (input : String)
  | output (callId : String) (output : String)
  | reasoning
  | other (kind : String)

def addCall (call : Call) (messages : List Message) : List Message :=
  match messages.getLast? with
  | some (.assistant calls) => messages.dropLast ++ [.assistant (calls ++ [call])]
  | _ => messages ++ [.assistant [call]]

/-- One round of the loop over the input. -/
def translateItem (messages : List Message) : InputItem → Option (List Message)
  | .message role c =>
    (content c).map fun c => messages ++ [.plain (if role = "developer" then "system" else role) c]
  | .functionCall callId name space arguments => some (addCall ⟨callId, aliasOf host space name, arguments⟩ messages)
  | .customToolCall callId name space input => some (addCall ⟨callId, aliasOf host space name, host.dumpsInput input⟩ messages)
  | .output callId output => some (messages ++ [.tool callId output])
  | .reasoning => some messages
  | .other _ => none

structure Request where
  previousResponseId : Bool := false
  tools : List Spec := []
  instructions : String := ""
  input : String ⊕ List InputItem
  /-- The images and the other fields are such as the provider takes. -/
  fieldsOk : Bool := true

def Request.items (req : Request) : List InputItem :=
  match req.input with
  | .inl text => [.message "user" (.text text)]
  | .inr items => items

def pdfNote : String :=
  "For PDF deliverables: retain the editable generator, compile it before running, and write large documents in bounded sections. With ReportLab, explicitly transition from cover to body PageTemplate; Paragraph textColor overrides TableStyle TEXTCOLOR. Use pdf_inspect on every page range, repair warnings, and render page PNGs using its preview_command_argv via the native command sandbox. Text extraction and file hashes do not prove readable layout. Do not claim visual verification when no image review succeeded. For a text-only model, do not call view_image; image_analyze is a separate approval-gated upload, not an automatic fallback. Read current version/revision from source instead of carrying stale values from conversation history."

def researchNote : String :=
  "Research efficiently: use focused queries, reuse fetched source IDs and their next_offset for pagination, and never repeat a failed/unsupported URL without a changed retrieval method. Fetch_url reads text pages, not PDFs/images. For documents use document_ocr, and for image understanding use image_analyze, only if available and after native upload approval. Do not substitute a shell upload to evade approval. Finish when evidence is sufficient; report gaps rather than endlessly collecting. Research workers should return their evidence and limitations promptly so the parent can synthesize partial results."

def leading (req : Request) (reg : Registry) : List Message :=
  (if req.instructions ≠ "" then [.plain "system" (.text req.instructions)] else []) ++
    (if ∃ x ∈ reg.mapping, "pdf_inspect".toList <:+ x.1.toList then [.plain "system" (.text pdfNote)] else []) ++
    (if ∃ x ∈ reg.mapping, host.research x.1 then [.plain "system" (.text researchNote)] else [])

/-- `translate_request`: the mapping with the tools, and the messages. -/
def translateRequest (req : Request) : Option (Registry × List Message) :=
  if req.previousResponseId ∨ ¬ req.fieldsOk then none
  else
    match tools host none req.tools {} with
    | none => none
    | some reg => (req.items.foldlM (translateItem host) (leading host req reg)).map fun messages => (reg, messages)

/-! ### Calls of the model -/

/-- The item of a call: its arguments, or the input of a custom tool. -/
structure ToolItem where
  kind : ToolKind
  id : String
  callId : String
  name : String
  space : Option String
  field : String
  deriving DecidableEq

def responseTool (mapping : List (String × ToolSpec)) (id : String) (call : Call) : Option ToolItem :=
  match mapping.find? fun x => x.1 = call.name with
  | none => none
  | some (_, spec) =>
    match host.loads call.arguments with
    | some (.object fields) =>
      match spec.kind with
      | .function => some ⟨.function, id, call.id, spec.name, spec.space.filter (· ≠ ""), call.arguments⟩
      | .custom =>
        match fields with
        | [("input", .text input)] => some ⟨.custom, id, call.id, spec.name, spec.space.filter (· ≠ ""), input⟩
        | _ => none
    | _ => none

def ToolItem.back (item : ToolItem) : InputItem :=
  match item.kind with
  | .function => .functionCall item.callId item.name item.space item.field
  | .custom => .customToolCall item.callId item.name item.space item.field

/-! ### What is to hold -/

/-- What a message, or an item, says. -/
inductive Entry
  | message (role : String) (content : WireContent)
  | call (call : Call)
  | output (callId : String) (output : String)

def Message.entries : Message → List Entry
  | .plain role content => [.message role content]
  | .assistant calls => calls.map .call
  | .tool callId content => [.output callId content]

def InputItem.entries : InputItem → List Entry
  | .message role c => ((content c).map fun c => Entry.message (if role = "developer" then "system" else role) c).toList
  | .functionCall callId name space arguments => [.call ⟨callId, aliasOf host space name, arguments⟩]
  | .customToolCall callId name space input => [.call ⟨callId, aliasOf host space name, host.dumpsInput input⟩]
  | .output callId s => [.output callId s]
  | .reasoning => []
  | .other _ => []

def Takes (kind : ToolKind) (arguments : Option Loaded) : Prop :=
  match kind with
  | .function => ∃ fields, arguments = some (.object fields)
  | .custom => ∃ input, arguments = some (.object [("input", .text input)])

/-- What the wire keeps: the aliases of the tools are distinct, a call of a tool comes back with its id, its alias and what its
arguments say, and the messages list the items of the input. -/
structure Survives (req : Request) (reg : Registry) (messages : List Message) : Prop where
  distinct : (reg.mapping.map Prod.fst).Nodup
  aliases : ∀ x ∈ reg.mapping, x.1 = aliasOf host x.2.space x.2.name
  back : ∀ x ∈ reg.mapping, ∀ id callId arguments : String, Takes x.2.kind (host.loads arguments) →
    ∃ item, responseTool host reg.mapping id ⟨callId, x.1, arguments⟩ = some item ∧
      ∃ call : Call, item.back.entries host = [.call call] ∧ call.id = callId ∧ call.name = x.1 ∧
        host.loads call.arguments = host.loads arguments
  entries : ∃ rest, messages = leading host req reg ++ rest ∧
    rest.flatMap Message.entries = req.items.flatMap (InputItem.entries host)

section Proofs
variable {host} {req : Request} {reg reg' : Registry} {lead acc messages : List Message} {space : Option String}

/-! ### Aliases -/

theorem raw_filter {name : String} : raw (space.filter (· ≠ "")) name = raw space name := by
  cases space with
  | none => rfl
  | some s =>
    by_cases hs : s = ""
    · subst hs
      rfl
    · simp [Option.filter, hs]

theorem alias_filter {name : String} : aliasOf host (space.filter (· ≠ "")) name = aliasOf host space name := by
  unfold aliasOf
  rw [raw_filter]

/-- The aliases are distinct, and those of their tools. -/
structure Sound (host : Host) (reg : Registry) : Prop where
  distinct : (reg.mapping.map Prod.fst).Nodup
  aliases : ∀ x ∈ reg.mapping, x.1 = aliasOf host x.2.space x.2.name

theorem Sound.register (h : Sound host reg) {spec : ToolSpec} {description parameters : String} {strict : Option Bool}
    (hreg : register host spec description parameters strict reg = some reg') : Sound host reg' := by
  unfold Wire.register at hreg
  split_ifs at hreg with htaken
  obtain rfl := Option.some.inj hreg
  refine ⟨?_, fun x hx => ?_⟩
  · rw [List.map_append, List.nodup_append]
    refine ⟨h.distinct, List.nodup_singleton _, fun a ha b hb => ?_⟩
    rintro rfl
    rw [List.map_singleton, List.mem_singleton] at hb
    rw [hb] at ha
    exact htaken ha
  · rcases List.mem_append.mp hx with hx | hx
    · exact h.aliases x hx
    · obtain rfl := List.mem_singleton.mp hx
      rfl

mutual

theorem Sound.tool {reg reg' : Registry} (h : Sound host reg) : ∀ {spec : Spec} {space : Option String},
    tool host space spec reg = some reg' → Sound host reg'
  | .function _ _ _ _, _, hreg => h.register hreg
  | .custom _ _ _, _, hreg => h.register hreg
  | .group _ _, _, hreg => Sound.tools h hreg
  | .hosted _, _, hreg => nomatch hreg

theorem Sound.tools {reg reg' : Registry} (h : Sound host reg) : ∀ {specs : List Spec} {space : Option String},
    tools host space specs reg = some reg' → Sound host reg'
  | [], _, hreg => Option.some.inj hreg ▸ h
  | _ :: _, _, hreg => by
    obtain ⟨reg₁, hone, hrest⟩ := Option.bind_eq_some_iff.mp hreg
    exact Sound.tools (Sound.tool h hone) hrest

end

/-! ### The way back -/

theorem find_of_mem (h : Sound host reg) {x : String × ToolSpec} (hx : x ∈ reg.mapping) :
    reg.mapping.find? (fun y => y.1 = x.1) = some x := by
  cases hfind : reg.mapping.find? fun y => y.1 = x.1 with
  | none =>
    have hnone := List.find?_eq_none.mp hfind x hx
    simp at hnone
  | some y =>
    have hy := List.mem_of_find?_eq_some hfind
    have hkey : y.1 = x.1 := by simpa using List.find?_some hfind
    rw [List.inj_on_of_nodup_map h.distinct hy hx hkey]

theorem Sound.back (h : Sound host reg) {x : String × ToolSpec} (hx : x ∈ reg.mapping) {id callId arguments : String}
    (htakes : Takes x.2.kind (host.loads arguments)) :
    ∃ item, responseTool host reg.mapping id ⟨callId, x.1, arguments⟩ = some item ∧
      ∃ call : Call, item.back.entries host = [.call call] ∧ call.id = callId ∧ call.name = x.1 ∧
        host.loads call.arguments = host.loads arguments := by
  obtain ⟨name', kind, name, space⟩ := x
  have hfind := find_of_mem h hx
  have halias : name' = Wire.aliasOf host space name := h.aliases _ hx
  cases kind with
  | function =>
    obtain ⟨fields, hfields⟩ := htakes
    refine ⟨⟨.function, id, callId, name, space.filter (· ≠ ""), arguments⟩, ?_, _, rfl, rfl, ?_, rfl⟩
    · simp only [responseTool, hfind, hfields]
    · rw [halias]
      exact alias_filter
  | custom =>
    obtain ⟨input, hinput⟩ := htakes
    refine ⟨⟨.custom, id, callId, name, space.filter (· ≠ ""), input⟩, ?_, _, rfl, rfl, ?_, ?_⟩
    · simp only [responseTool, hfind, hinput]
    · rw [halias]
      exact alias_filter
    · rw [hinput]
      exact host.loads_dumpsInput input

/-! ### The input -/

def Plain (m : Message) : Prop := ∃ role content, m = .plain role content

theorem addCall_entries {call : Call} (hlead : ∀ m ∈ lead, Plain m) : ∃ acc', addCall call (lead ++ acc) = lead ++ acc' ∧
    acc'.flatMap Message.entries = acc.flatMap Message.entries ++ [.call call] := by
  have hnew : lead ++ acc ++ [.assistant [call]] = lead ++ (acc ++ [.assistant [call]]) := List.append_assoc _ _ _
  rcases List.eq_nil_or_concat acc with rfl | ⟨acc, m, rfl⟩
  · refine ⟨[.assistant [call]], ?_, rfl⟩
    unfold addCall
    split
    · next calls hlast =>
      rw [List.append_nil] at hlast
      obtain ⟨role, content, hplain⟩ := hlead _ (List.mem_of_getLast? hlast)
      cases hplain
    · rw [List.append_nil]
  · rw [List.concat_eq_append, ← List.append_assoc]
    unfold addCall
    rw [List.getLast?_concat]
    cases m with
    | assistant calls =>
      refine ⟨acc ++ [.assistant (calls ++ [call])], ?_, ?_⟩
      · simp
      · simp [Message.entries]
    | plain role content =>
      refine ⟨acc ++ [.plain role content] ++ [.assistant [call]], ?_, ?_⟩
      · simp
      · simp [Message.entries]
    | tool callId content =>
      refine ⟨acc ++ [.tool callId content] ++ [.assistant [call]], ?_, ?_⟩
      · simp
      · simp [Message.entries]

theorem translateItem_entries {item : InputItem} (hlead : ∀ m ∈ lead, Plain m)
    (h : translateItem host (lead ++ acc) item = some messages) :
    ∃ acc', messages = lead ++ acc' ∧ acc'.flatMap Message.entries = acc.flatMap Message.entries ++ item.entries host := by
  cases item with
  | message role c =>
    obtain ⟨c', hc, rfl⟩ := Option.map_eq_some_iff.mp h
    refine ⟨acc ++ [_], List.append_assoc _ _ _, ?_⟩
    simp [InputItem.entries, hc, Message.entries]
  | functionCall callId name space arguments =>
    obtain rfl := Option.some.inj h
    exact addCall_entries hlead
  | customToolCall callId name space input =>
    obtain rfl := Option.some.inj h
    exact addCall_entries hlead
  | output callId output =>
    obtain rfl := Option.some.inj h
    exact ⟨acc ++ [_], List.append_assoc _ _ _, by simp [InputItem.entries, Message.entries]⟩
  | reasoning =>
    obtain rfl := Option.some.inj h
    exact ⟨acc, rfl, by simp [InputItem.entries]⟩
  | other kind => cases h

/-- **No item is lost**, and none comes twice. -/
theorem translateItems_entries {items : List InputItem} (acc : List Message) (hlead : ∀ m ∈ lead, Plain m)
    (h : items.foldlM (translateItem host) (lead ++ acc) = some messages) :
    ∃ acc', messages = lead ++ acc' ∧
      acc'.flatMap Message.entries = acc.flatMap Message.entries ++ items.flatMap (InputItem.entries host) := by
  induction items generalizing acc with
  | nil =>
    obtain rfl := Option.some.inj h
    exact ⟨acc, rfl, by simp⟩
  | cons item items ih =>
    rw [List.foldlM_cons] at h
    obtain ⟨messages₁, hone, hrest⟩ := Option.bind_eq_some_iff.mp h
    obtain ⟨acc₁, rfl, hentries⟩ := translateItem_entries hlead hone
    obtain ⟨acc', hmessages, hall⟩ := ih acc₁ hrest
    exact ⟨acc', hmessages, by rw [hall, hentries, List.flatMap_cons, List.append_assoc]⟩

theorem plain_leading : ∀ m ∈ leading host req reg, Plain m := by
  intro m hm
  have hsplit : ∀ (p : Prop) [Decidable p] (text : String),
      m ∈ (if p then [Message.plain "system" (.text text)] else []) → Plain m := by
    intro p _ text hmem
    split_ifs at hmem
    · exact ⟨_, _, List.mem_singleton.mp hmem⟩
    · simp at hmem
  rcases List.mem_append.mp hm with hm | hm
  · rcases List.mem_append.mp hm with hm | hm
    · exact hsplit _ _ hm
    · exact hsplit _ _ hm
  · exact hsplit _ _ hm

end Proofs

def escape : List Char → List Char
  | [] => []
  | c :: cs => if c = '"' ∨ c = '\\' then '\\' :: c :: escape cs else c :: escape cs

def unescape : List Char → List Char
  | '\\' :: c :: cs => c :: unescape cs
  | c :: cs => c :: unescape cs
  | [] => []

theorem unescape_escape (cs : List Char) : unescape (escape cs) = cs := by
  induction cs with
  | nil => rfl
  | cons c cs ih =>
    unfold escape
    split_ifs with hc
    · rw [unescape, ih]
    · have hback : c ≠ '\\' := fun h => hc (Or.inr h)
      rw [unescape, ih]
      rintro d ds rfl
      exact absurd rfl hback

def opening : List Char := "\x7b\"input\": \"".toList

def closing : List Char := "\"\x7d".toList

def smallLoads (text : String) : Option Loaded :=
  if text.toList = ['\x7b', '\x7d'] then some (.object [])
  else if opening <+: text.toList ∧ closing <:+ text.toList then
    some (.object [("input", .text (String.ofList (unescape ((text.toList.drop opening.length).dropLast.dropLast))))])
  else none

def smallDumps (input : String) : String := String.ofList (opening ++ escape input.toList ++ closing)

theorem smallLoads_smallDumps (input : String) : smallLoads (smallDumps input) = some (.object [("input", .text input)]) := by
  have htext : (smallDumps input).toList = opening ++ escape input.toList ++ closing := String.toList_ofList
  have hclosing : closing = ['"'] ++ ['\x7d'] := by decide
  have hshort : (smallDumps input).toList ≠ ['\x7b', '\x7d'] := by
    intro h
    have hlen := congrArg List.length h
    have hopening : opening.length = 11 := by decide
    rw [htext, List.length_append, List.length_append, hopening] at hlen
    simp only [List.length_cons, List.length_nil] at hlen
    omega
  have hends : opening <+: (smallDumps input).toList ∧ closing <:+ (smallDumps input).toList := by
    rw [htext]
    exact ⟨(List.prefix_append _ _).trans (List.prefix_append _ _), List.suffix_append _ _⟩
  have hinside : ((smallDumps input).toList.drop opening.length).dropLast.dropLast = escape input.toList := by
    rw [htext, List.append_assoc, List.drop_left, hclosing, ← List.append_assoc, List.dropLast_concat, List.dropLast_concat]
  rw [smallLoads, if_neg hshort, if_pos hends, hinside, unescape_escape, String.ofList_toList]

/-- JSON of an object without keys, and of inputs of printable ASCII. -/
def smallHost : Host where
  sha256 := fun raw => raw
  loads := smallLoads
  dumpsInput := smallDumps
  loads_dumpsInput := smallLoads_smallDumps
  research := fun name => name = "web_search"

def twoTools : Request where
  tools := [.function "shell" "Run a command." "\x7b\x7d" none, .group "mail" [.custom "draft" "Write." none]]
  input := .inr [.message "user" (.text "Write to Ravi."), .reasoning, .functionCall "c1" "shell" none "\x7b\x7d",
    .customToolCall "c2" "draft" (some "mail") "Dear Ravi", .output "c1" "ok", .output "c2" "ok"]

end Smara.Native.Wire
