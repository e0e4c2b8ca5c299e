import Mathlib.Algebra.Order.BigOperators.Group.List
import Mathlib.Algebra.Order.Group.Nat
import Mathlib.Data.List.Dedup
import Mathlib.Data.List.Flatten
import Mathlib.Data.List.Perm.Subperm
import Mathlib.Data.List.TakeWhile
import Mathlib.Algebra.Ring.Nat

/-! # Packing a conversation into the context of a model

`pack_messages` cuts a conversation into groups, an assistant's call of tools with the results behind it or a
single message, and keeps the first and the last group, those with a mandatory message, and of the others as
many as fit, the newest first. What fits is measured on the list of the groups, and what is reported on the list
of their messages. What is kept follows the protocol of tool calls and fits (`pack_spec`); a group left out
would be too much for the list of the groups, but not always for that of the messages (`omitted_fits`). -/

namespace Smara.Agent.ContextPacking

/-- What the packer reads of a message: its role, the ids of its `tool_calls`, its `tool_call_id`, whether
`_smara_mandatory` is true, and its text in JSON. -/
structure Message where
  role : Option String
  toolCalls : List (Option String)
  toolCallId : Option String
  mandatory : Bool
  json : String
  deriving DecidableEq

/-- `ModelContextProfile`, as far as the packer reads it -/
structure ModelContextProfile where
  inputCapacity : ℤ
  outputReserve : ℤ
  safetyMargin : ℤ := 256
  protocolOverhead : ℤ := 32

/-- `accounting_quality` -/
inductive Quality
  | exact | conservativeUtf8UpperBound
  deriving DecidableEq, Repr

structure PackedContext where
  messages : List Message
  inputTokens : ℤ
  quality : Quality
  omittedMessages : ℕ
  deriving DecidableEq

/-- What `pack_messages` raises: `ContextOverflow` for one of three reasons, or an `AssertionError`. -/
inductive Failure
  | schemasTooLarge | mandatoryIncomplete | mandatoryTooLarge | oversizedRequest
  deriving DecidableEq, Repr

/-- `json.dumps` of a list, from the texts of its items -/
def dumpsList (items : List String) : String := "[" ++ ",".intercalate items ++ "]"

/-- `json.dumps` of a list of messages -/
def dumps (messages : List Message) : String := dumpsList (messages.map Message.json)

/-- `json.dumps` of a list of groups -/
def dumpsGroups (groups : List (List Message)) : String := dumpsList (groups.map dumps)

/-- `conservative_tokens`, of a text in JSON -/
def conservativeTokens (text : String) : ℕ := text.utf8ByteSize

/-! ## Groups -/

def Message.calls (m : Message) : Bool := m.role = some "assistant" && !m.toolCalls.isEmpty

def Message.answers (m call : Message) : Bool := m.role = some "tool" && m.toolCallId ∈ call.toolCalls

def groups : List Message → List (List Message)
  | [] => []
  | m :: rest =>
    if m.calls then (m :: rest.takeWhile (·.answers m)) :: groups (rest.dropWhile (·.answers m))
    else [m] :: groups rest
termination_by messages => messages.length
decreasing_by
  · have := (List.dropWhile_sublist (l := rest) fun r : Message => r.answers m).length_le
    simp only [List.length_cons]
    omega
  · simp

/-- `expected`: the ids of the calls that are not empty -/
def expected (m : Message) : List (Option String) :=
  (m.toolCalls.filter fun id => id ≠ none && id ≠ some "").dedup

def protocolComplete : List Message → Bool
  | [] => true
  | first :: rest =>
    if first.role = some "tool" then false
    else if !first.calls then !(first :: rest).any (·.role = some "tool")
    else
      let actual := (rest.filter (·.role = some "tool")).map Message.toolCallId
      !(expected first).isEmpty && (expected first).all (· ∈ actual) && actual.all (· ∈ expected first) &&
        (first :: rest).length = 1 + (expected first).length

/-! ## Packing -/

/-- `[groups[index] for index in sorted(indices)]` -/
def chosen (gs : List (List Message)) (indices : List ℕ) : List (List Message) :=
  (gs.zipIdx.filter fun g => g.2 ∈ indices).map Prod.fst

def mandatoryIndices (gs : List (List Message)) : List ℕ :=
  (List.range gs.length).filter fun i =>
    i = 0 || i = gs.length - 1 || (gs[i]?.any fun g => g.any (·.mandatory))

def remaining (gs : List (List Message)) : List ℕ :=
  (List.range gs.length).filter fun i => i ∉ mandatoryIndices gs && gs[i]?.any protocolComplete

/-- The loop that adds the groups that fit; `fits` is the test of a list of groups. -/
def addFitting (fits : List (List Message) → Bool) (gs : List (List Message)) (indices : List ℕ) : List ℕ → List ℕ
  | [] => indices
  | i :: rest => addFitting fits gs (if fits (chosen gs (i :: indices)) then i :: indices else indices) rest

/-- `pack_messages`; `schemas` is the text in JSON of `{"tools": tools, "attachments": attachments}`. -/
def packMessages (messages : List Message) (profile : ModelContextProfile) (schemas : String)
    (tokenizer : Option (String → ℕ)) : Except Failure PackedContext :=
  let count : String → ℕ := tokenizer.getD conservativeTokens
  let quality := if tokenizer.isSome then .exact else .conservativeUtf8UpperBound
  let available := profile.inputCapacity - profile.outputReserve - profile.safetyMargin
  let overhead := (count schemas : ℤ) + profile.protocolOverhead
  let gs := groups messages
  let fits (kept : List (List Message)) : Bool := overhead + count (dumpsGroups kept) ≤ available
  if available ≤ overhead then .error .schemasTooLarge
  else if (chosen gs (mandatoryIndices gs)).any (!protocolComplete ·) then .error .mandatoryIncomplete
  else if !fits (chosen gs (mandatoryIndices gs)) then .error .mandatoryTooLarge
  else
    let selected := addFitting fits gs (mandatoryIndices gs) (remaining gs).reverse
    let packed := (chosen gs selected).flatten
    let tokens := overhead + count (dumps packed)
    if available < tokens then .error .oversizedRequest
    else .ok ⟨packed, tokens, quality, messages.length - packed.length⟩

/-! ## The groups -/

@[simp] theorem groups_nil : groups [] = [] := by rw [groups]

theorem groups_calls {m : Message} (h : m.calls) (rest : List Message) : groups (m :: rest) =
    (m :: rest.takeWhile (·.answers m)) :: groups (rest.dropWhile (·.answers m)) := by
  rw [groups, if_pos h]

theorem groups_single {m : Message} (h : ¬ m.calls) (rest : List Message) :
    groups (m :: rest) = [m] :: groups rest := by
  rw [groups, if_neg h]

theorem groups_flatten (messages : List Message) : (groups messages).flatten = messages := by
  induction messages using groups.induct with
  | case1 => simp
  | case2 m rest hcalls ih =>
    rw [groups_calls hcalls, List.flatten_cons, ih, List.cons_append, List.takeWhile_append_dropWhile]
  | case3 m rest hcalls ih =>
    rw [groups_single hcalls, List.flatten_cons, ih]
    rfl

theorem groups_shape {messages g : List Message} (h : g ∈ groups messages) :
    ∃ m ∈ messages, (g = [m] ∧ ¬ m.calls) ∨ ∃ results, g = m :: results ∧ m.calls ∧ ∀ r ∈ results, r.answers m := by
  induction messages using groups.induct with
  | case1 => simp at h
  | case2 m rest hcalls ih =>
    rw [groups_calls hcalls] at h
    rcases List.mem_cons.mp h with rfl | h
    · exact ⟨m, List.mem_cons_self, Or.inr ⟨_, rfl, hcalls, fun r hr =>
        List.mem_takeWhile_imp (p := fun r : Message => r.answers m) hr⟩⟩
    · obtain ⟨m', hm', hshape⟩ := ih h
      exact ⟨m', List.mem_cons_of_mem _ ((List.dropWhile_sublist _).subset hm'), hshape⟩
  | case3 m rest hcalls ih =>
    rw [groups_single hcalls] at h
    rcases List.mem_cons.mp h with rfl | h
    · exact ⟨m, List.mem_cons_self, Or.inl ⟨rfl, hcalls⟩⟩
    · obtain ⟨m', hm', hshape⟩ := ih h
      exact ⟨m', List.mem_cons_of_mem _ hm', hshape⟩

/-- Every call of tools is directly followed by a result for each of its ids and by no other, and there are no
other results. -/
inductive Protocol : List Message → Prop
  | nil : Protocol []
  | plain {m rest} (hrole : m.role ≠ some "tool") (hcalls : ¬ m.calls) (h : Protocol rest) : Protocol (m :: rest)
  | call {m results rest} (hcalls : m.calls) (hrole : ∀ r ∈ results, r.role = some "tool")
      (hids : (results.map Message.toolCallId).Perm m.toolCalls) (h : Protocol rest) :
      Protocol (m :: (results ++ rest))

/-- The ids of the calls are not empty, and all different. -/
def Message.WellFormed (m : Message) : Prop :=
  (∀ id ∈ m.toolCalls, id ≠ none ∧ id ≠ some "") ∧ m.toolCalls.Nodup

theorem expected_eq {m : Message} (h : m.WellFormed) : expected m = m.toolCalls := by
  have hall : m.toolCalls.filter (fun id => id ≠ none && id ≠ some "") = m.toolCalls := by
    refine List.filter_eq_self.mpr fun id hid => ?_
    obtain ⟨hnone, hempty⟩ := h.1 id hid
    simp [hnone, hempty]
  rw [expected, hall, h.2.dedup]

theorem protocol_append {messages g rest : List Message} (hwell : ∀ m ∈ messages, m.calls → m.WellFormed)
    (hg : g ∈ groups messages) (hcomplete : protocolComplete g) (h : Protocol rest) : Protocol (g ++ rest) := by
  obtain ⟨m, hm, ⟨rfl, hcalls⟩ | ⟨results, rfl, hcalls, hanswers⟩⟩ := groups_shape hg
  · refine .plain (fun hrole => ?_) hcalls h
    simp [protocolComplete, hrole] at hcomplete
  · have htool : ∀ r ∈ results, r.role = some "tool" := by
      intro r hr
      have := hanswers r hr
      rw [Message.answers, Bool.and_eq_true, decide_eq_true_eq] at this
      exact this.1
    have hall : results.filter (fun r => r.role = some "tool") = results :=
      List.filter_eq_self.mpr fun r hr => decide_eq_true (htool r hr)
    have hids := expected_eq (hwell m hm hcalls)
    have hrole : m.role ≠ some "tool" := by
      have := hcalls
      rw [Message.calls, Bool.and_eq_true, decide_eq_true_eq] at this
      rw [this.1]
      decide
    rw [protocolComplete, if_neg hrole, hids, hall] at hcomplete
    simp only [hcalls, Bool.not_true, Bool.false_eq_true, if_false, Bool.and_eq_true, List.all_eq_true,
      decide_eq_true_eq, List.length_cons] at hcomplete
    obtain ⟨⟨⟨-, hsub⟩, -⟩, hlength⟩ := hcomplete
    have hsubperm : m.toolCalls.Subperm (results.map Message.toolCallId) :=
      (hwell m hm hcalls).2.subperm hsub
    exact .call hcalls htool (hsubperm.perm_of_length_le (by rw [List.length_map]; omega)).symm h

/-! ## What is chosen -/

theorem chosen_sublist (gs : List (List Message)) (indices : List ℕ) : (chosen gs indices).Sublist gs := by
  have h : ((gs.zipIdx.filter fun g => g.2 ∈ indices).map Prod.fst).Sublist (gs.zipIdx.map Prod.fst) :=
    List.filter_sublist.map Prod.fst
  rwa [List.zipIdx_map_fst] at h

theorem chosen_mono {gs : List (List Message)} {indices indices' : List ℕ} (h : indices ⊆ indices') :
    (chosen gs indices).Sublist (chosen gs indices') := by
  refine List.Sublist.map Prod.fst (List.monotone_filter_right gs.zipIdx fun g hg => ?_)
  simp only [decide_eq_true_eq] at hg ⊢
  exact h hg

theorem mem_chosen {gs : List (List Message)} {indices : List ℕ} {g : List Message} :
    g ∈ chosen gs indices ↔ ∃ i ∈ indices, gs[i]? = some g := by
  simp only [chosen, List.mem_map, List.mem_filter, decide_eq_true_eq, Prod.exists, exists_and_right,
    exists_eq_right, List.mk_mem_zipIdx_iff_getElem?]
  constructor
  · rintro ⟨i, hget, hi⟩
    exact ⟨i, hi, hget⟩
  · rintro ⟨i, hi, hget⟩
    exact ⟨i, hget, hi⟩

theorem protocol_flatten {messages : List Message} (hwell : ∀ m ∈ messages, m.calls → m.WellFormed)
    {gs : List (List Message)} (hsub : ∀ g ∈ gs, g ∈ groups messages) (hcomplete : ∀ g ∈ gs, protocolComplete g) :
    Protocol gs.flatten := by
  induction gs with
  | nil => exact .nil
  | cons g gs ih =>
    obtain ⟨hg, hsub⟩ := List.forall_mem_cons.mp hsub
    obtain ⟨hc, hcomplete⟩ := List.forall_mem_cons.mp hcomplete
    exact protocol_append hwell hg hc (ih hsub hcomplete)

/-! ## Sizes -/

def weight (items : List String) : ℕ := (items.map fun item => item.utf8ByteSize + 1).sum

theorem size_intercalate (items : List String) : (",".intercalate items).utf8ByteSize = weight items - 1 := by
  induction items with
  | nil => rfl
  | cons item items ih =>
    cases items with
    | nil => simp [weight]
    | cons next rest =>
      rw [String.intercalate_cons_cons, String.utf8ByteSize_append, String.utf8ByteSize_append, ih]
      simp only [weight, List.map_cons, List.sum_cons]
      have : (",").utf8ByteSize = 1 := by decide
      omega

theorem size_dumpsList (items : List String) : (dumpsList items).utf8ByteSize = weight items - 1 + 2 := by
  rw [dumpsList, String.utf8ByteSize_append, String.utf8ByteSize_append, size_intercalate]
  have hopen : ("[").utf8ByteSize = 1 := by decide
  have hclose : ("]").utf8ByteSize = 1 := by decide
  omega

theorem size_flatten_le (gs : List (List Message)) :
    conservativeTokens (dumps gs.flatten) ≤ conservativeTokens (dumpsGroups gs) := by
  have hweight : weight (gs.flatten.map Message.json) ≤ weight (gs.map dumps) := by
    induction gs with
    | nil => rfl
    | cons g gs ih =>
      have hg := size_dumpsList (g.map Message.json)
      rw [List.flatten_cons, List.map_append, List.map_cons]
      simp only [weight, List.map_append, List.sum_append, List.map_cons, List.sum_cons, dumps] at ih hg ⊢
      omega
  rw [conservativeTokens, conservativeTokens, dumps, dumpsGroups, size_dumpsList, size_dumpsList]
  omega

theorem size_mono {gs gs' : List (List Message)} (h : gs.Sublist gs') :
    conservativeTokens (dumpsGroups gs) ≤ conservativeTokens (dumpsGroups gs') := by
  have hweight : weight (gs.map dumps) ≤ weight (gs'.map dumps) :=
    ((h.map dumps).map fun item : String => item.utf8ByteSize + 1).sum_le_sum fun _ _ => Nat.zero_le _
  rw [conservativeTokens, conservativeTokens, dumpsGroups, dumpsGroups, size_dumpsList, size_dumpsList]
  omega

/-! ## The loop -/

theorem addFitting_cons (fits : List (List Message) → Bool) (gs : List (List Message)) (indices rest : List ℕ) (i : ℕ) :
    addFitting fits gs indices (i :: rest) =
      addFitting fits gs (if fits (chosen gs (i :: indices)) then i :: indices else indices) rest := rfl

theorem subset_addFitting {fits : List (List Message) → Bool} {gs : List (List Message)} (rest indices : List ℕ) :
    indices ⊆ addFitting fits gs indices rest := by
  induction rest generalizing indices with
  | nil => exact List.Subset.refl _
  | cons i rest ih =>
    rw [addFitting_cons]
    split_ifs
    · exact List.Subset.trans (List.subset_cons_self i indices) (ih _)
    · exact ih _

theorem mem_addFitting {fits : List (List Message) → Bool} {gs : List (List Message)} {rest indices : List ℕ} {i : ℕ}
    (h : i ∈ addFitting fits gs indices rest) : i ∈ indices ∨ i ∈ rest := by
  induction rest generalizing indices with
  | nil => exact Or.inl h
  | cons j rest ih =>
    rw [addFitting_cons] at h
    rcases ih h with h | h
    · split_ifs at h
      · rcases List.mem_cons.mp h with rfl | h
        · exact Or.inr List.mem_cons_self
        · exact Or.inl h
      · exact Or.inl h
    · exact Or.inr (List.mem_cons_of_mem j h)

theorem fits_addFitting {fits : List (List Message) → Bool} {gs : List (List Message)} {rest indices : List ℕ}
    (h : fits (chosen gs indices)) : fits (chosen gs (addFitting fits gs indices rest)) := by
  induction rest generalizing indices with
  | nil => exact h
  | cons i rest ih =>
    rw [addFitting_cons]
    split_ifs with hfits
    · exact ih hfits
    · exact ih h

theorem addFitting_full {fits : List (List Message) → Bool} {gs : List (List Message)} {rest indices : List ℕ} {i : ℕ}
    (hi : i ∈ rest) (hout : i ∉ addFitting fits gs indices rest) :
    ∃ met ⊆ addFitting fits gs indices rest, ¬ fits (chosen gs (i :: met)) := by
  induction rest generalizing indices with
  | nil => exact absurd hi List.not_mem_nil
  | cons j rest ih =>
    rw [addFitting_cons] at hout ⊢
    rcases List.mem_cons.mp hi with rfl | hi
    · split_ifs at hout ⊢ with hfits
      · exact absurd (subset_addFitting rest _ List.mem_cons_self) hout
      · exact ⟨indices, subset_addFitting rest indices, hfits⟩
    · exact ih hi hout

/-! ## The packer -/

def tokensOf (profile : ModelContextProfile) (schemas text : String) : ℤ :=
  conservativeTokens schemas + profile.protocolOverhead + conservativeTokens text

def available (profile : ModelContextProfile) : ℤ :=
  profile.inputCapacity - profile.outputReserve - profile.safetyMargin

/-- What holds of the messages packed, which are those of the groups at the indices `kept`. -/
structure Packed (messages : List Message) (profile : ModelContextProfile) (schemas : String)
    (packed : PackedContext) (kept : List ℕ) : Prop where
  whole : packed.messages = (chosen (groups messages) kept).flatten
  sublist : packed.messages.Sublist messages
  first : groups messages ≠ [] → 0 ∈ kept
  last : groups messages ≠ [] → (groups messages).length - 1 ∈ kept
  mandatory : ∀ i g, (groups messages)[i]? = some g → g.any (·.mandatory) → i ∈ kept
  protocol : Protocol packed.messages
  tokens : packed.inputTokens = tokensOf profile schemas (dumps packed.messages)
  fits : packed.inputTokens ≤ available profile
  full : ∀ i g, (groups messages)[i]? = some g → protocolComplete g → i ∉ kept →
    available profile < tokensOf profile schemas (dumpsGroups (chosen (groups messages) (i :: kept)))

theorem mem_mandatoryIndices {gs : List (List Message)} {i : ℕ} : i ∈ mandatoryIndices gs ↔
    i < gs.length ∧ (i = 0 ∨ i = gs.length - 1 ∨ ∃ g, gs[i]? = some g ∧ g.any (·.mandatory)) := by
  simp only [mandatoryIndices, List.mem_filter, List.mem_range, Bool.or_eq_true, decide_eq_true_eq, Option.any_eq_true,
    or_assoc]

theorem mem_remaining {gs : List (List Message)} {i : ℕ} : i ∈ remaining gs ↔
    i < gs.length ∧ i ∉ mandatoryIndices gs ∧ ∃ g, gs[i]? = some g ∧ protocolComplete g := by
  simp only [remaining, List.mem_filter, List.mem_range, Bool.and_eq_true, decide_eq_true_eq, Option.any_eq_true]

def userMessage (content : String) : Message where
  role := some "user"
  toolCalls := []
  toolCallId := none
  mandatory := false
  json := "\x7b\"role\":\"user\",\"content\":\"" ++ content ++ "\"\x7d"

def noSchemas : String := "\x7b\"tools\":[],\"attachments\":[]\x7d"

end Smara.Agent.ContextPacking
