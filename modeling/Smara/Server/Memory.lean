import Mathlib.Data.Bool.AllAny
import Smara.Lib.Machine
import Smara.Server.Schema

/-! # What is remembered of a conversation

After a turn of the owner the facts that are worth remembering are queued in the outbox, and a tool of the agent
queues one more whenever the model calls it. The insertion ignores a source id that is there already, and the ids
are made of the session with the index of the fact in its turn, or with the id of the call.

* `Turn`, `EvidenceCall`: what is to be remembered.
* `Op`, `step`: the insertions, in any order.
* `Op.key?`: what the id of a fact depends on.
* `remembered_iff`: each fact has its own row exactly if no two facts depend on the same. -/

namespace Smara.Server.Memory

open Lib.Machine Server.Schema
open TaskStore.Schema (Time)

/-! ### Facts -/

/-- The id of a session, the text of a UUID. -/
structure SessionId where
  chars : List Char
  length : chars.length = 36
  plain : ∀ c ∈ chars, c.isAlphanum ∨ c = '-'

/-- What the model says of a fact. -/
structure Note where
  about : String
  customer : String
  fact : String

/-- What Python computes of texts by Unicode tables. -/
structure Host where
  /-- `str.strip` -/
  strip : String → String
  /-- `re.sub(r"\s+", " ", s).strip()` -/
  squeeze : String → String

/-- The first characters of a text. -/
def cut (n : ℕ) (s : String) : String := String.ofList (s.toList.take n)

def maxFacts : ℕ := 5

/-- A turn of the owner, after the reply. -/
structure Turn where
  tenantId : Id
  session : SessionId
  /-- there is a model to ask -/
  enabled : Bool
  /-- `_agent_already_saved` -/
  saved : Bool
  /-- `_owner_text` -/
  ownerSaid : String
  /-- the facts that the model answers with, if it does -/
  answer : Option (List Note)

variable (host : Host)

/-- The facts of `remember_from_turn`. -/
def Turn.facts (t : Turn) : List Note :=
  if t.enabled = false ∨ t.saved = true ∨ (host.strip t.ownerSaid).length < 12 then []
  else ((t.answer.getD []).filter fun f => host.strip f.fact ≠ "").take maxFacts

/-- A call of `write_continuum_evidence`. -/
structure EvidenceCall where
  tenantId : Id
  session : SessionId
  callId : String
  partyId : String
  /-- `party_in_tenant` -/
  inTenant : Bool
  text : String
  /-- the session is not `UNTRUSTED` -/
  trusted : Bool

/-- `_memory_scope` -/
def EvidenceCall.scope (c : EvidenceCall) : Option String :=
  if c.partyId = "shop" then some (scopeUser c.tenantId "shop")
  else if c.inTenant then some (scopeUser c.tenantId c.partyId) else none

/-! ### Source ids -/

/-- The source id of the fact `i` of a turn. -/
def passId (session : SessionId) (i : ℕ) : String :=
  String.ofList (("mem_".toList ++ session.chars ++ "_".toList ++ (toString i).toList).take 200)

/-- `re.sub(r"[^A-Za-z0-9._:-]", "-", s)`, of one character -/
def plain (c : Char) : Char :=
  if c.isAlphanum ∨ c = '.' ∨ c = '_' ∨ c = ':' ∨ c = '-' then c else '-'

def evidenceId (session : SessionId) (id : String) : String :=
  String.ofList ((("agent_".toList ++ session.chars ++ "_".toList ++ id.toList).map plain).take 200)

def OfMemory (sourceId : String) : Prop := "mem_".toList <+: sourceId.toList ∨ "agent_".toList <+: sourceId.toList

instance : DecidablePred OfMemory := fun _ => inferInstanceAs (Decidable (_ ∨ _))

/-- What `enqueue` is given. -/
structure Entry where
  userId : String
  sourceId : String
  text : String
  trusted : Bool
  stampObligationId : Option Id := none
  deriving DecidableEq

/-- What other parts of the server queue: the messages of debtors, and the reminders. -/
structure OtherEntry extends Entry where
  other : ¬ OfMemory sourceId

/-! ### Insertions -/

/-- An insertion, if it does not raise. -/
inductive Op
  /-- the fact `i` of a turn, with the party that `_party_id` finds -/
  | pass (t : Turn) (i : ℕ) (party : Option Id) (ok : Bool) (now : Time)
  | evidence (c : EvidenceCall) (ok : Bool) (now : Time)
  | other (e : OtherEntry) (now : Time)

/-- The row of the fact `f`, the fact `i` of a turn. -/
def Turn.entry (t : Turn) (i : ℕ) (f : Note) (party : Option Id) : Entry :=
  let party := if f.about = "customer" then party else none
  let text := cut 300 (host.squeeze f.fact)
  let named := "About " ++ cut 60 (host.strip f.customer) ++ ": " ++ text
  { userId := scopeUser t.tenantId (party.getD "shop")
    sourceId := passId t.session i
    text := if f.about = "customer" ∧ party = none ∧ f.customer ≠ "" then named else text
    trusted := true }

/-- The row of a call, if it is accepted. -/
def EvidenceCall.entryOf (c : EvidenceCall) : Option Entry :=
  let text := cut 4000 (host.strip c.text)
  match c.scope with
  | none => none
  | some scope => if text = "" then none else some ⟨scope, evidenceId c.session c.callId, text, c.trusted, none⟩

/-- The row of the fact that is accepted. -/
def Op.fact? : Op → Option Entry
  | .pass t i party ok _ => if ok then ((t.facts host)[i]?).map fun f => t.entry host i f party else none
  | .evidence c ok _ => if ok then c.entryOf host else none
  | .other _ _ => none

def Op.entryOf : Op → Option Entry
  | .other e _ => some e.toEntry
  | op => op.fact? host

def Op.now : Op → Time
  | .pass _ _ _ _ now | .evidence _ _ now | .other _ now => now

/-- **A step**: the insertion of `enqueue`. -/
def step (db : Db) (op : Op) : Db :=
  match op.entryOf host with
  | none => db
  | some e => enqueue op.now e.userId e.sourceId e.text e.trusted e.stampObligationId db

/-- `remember_from_turn`: its insertions, and the count that it returns. -/
def rememberFromTurn (t : Turn) (party : Note → Option Id) (ok : ℕ → Bool) (now : Time) : List Op × ℕ :=
  let indices := List.range (t.facts host).length
  (indices.map fun i => .pass t i (((t.facts host)[i]?).bind party) (ok i) now, indices.countP fun i => ok i)

/-! ### What is remembered -/

def facts (ops : List Op) : List Entry := ops.filterMap fun op => op.fact? host

def Entry.of (r : OutboxRow) : Entry := ⟨r.userId, r.sourceId, r.text, r.trusted, r.stampObligationId⟩

def memories (db : Db) : List Entry := (db.outbox.map Entry.of).filter fun e => OfMemory e.sourceId

/-- No fact is dropped: each has its own id, and its own row. -/
structure Remembered (ops : List Op) : Prop where
  ids : ((facts host ops).map Entry.sourceId).Nodup
  rows : memories (run (step host) {} ops) = facts host ops

/-- What the id of a fact depends on. -/
inductive Key
  | pass (session : List Char) (i : ℕ)
  | call (session : List Char) (label : List Char)
  deriving DecidableEq

/-- The key of a fact that is accepted: the index in its turn, or what is left of the id of its call. -/
def Op.key? (op : Op) : Option Key :=
  (op.fact? host).bind fun _ =>
    match op with
    | .pass t i _ _ _ => some (.pass t.session.chars i)
    | .evidence c _ _ => some (.call c.session.chars ((c.callId.toList.map plain).take 157))
    | .other _ _ => none

/-! ### Keys -/

def Key.sourceId : Key → String
  | .pass session i => String.ofList ("mem_".toList ++ session ++ "_".toList ++ (toString i).toList)
  | .call session label => String.ofList ("agent_".toList ++ session ++ "_".toList ++ label)

def Key.Valid : Key → Prop
  | .pass session i => session.length = 36 ∧ i < maxFacts
  | .call session _ => session.length = 36

theorem toString_inj_of_lt : ∀ i < maxFacts, ∀ j < maxFacts, (toString i).toList = (toString j).toList → i = j := by
  decide

theorem length_toString_of_lt : ∀ i < maxFacts, (toString i).toList.length = 1 := by decide

/-- **The id tells the key.** -/
theorem sourceId_injective {k k' : Key} (hk : k.Valid) (hk' : k'.Valid) (h : k.sourceId = k'.sourceId) : k = k' := by
  have hsplit {pre s s' l l' : List Char} (hs : s.length = 36) (hs' : s'.length = 36)
      (heq : pre ++ s ++ "_".toList ++ l = pre ++ s' ++ "_".toList ++ l') : s = s' ∧ l = l' := by
    simp only [List.append_assoc, List.append_cancel_left_eq] at heq
    obtain ⟨hsession, hrest⟩ := List.append_inj heq (hs.trans hs'.symm)
    exact ⟨hsession, List.append_cancel_left hrest⟩
  cases k with
  | pass s i =>
    cases k' with
    | pass s' i' =>
      obtain ⟨rfl, hi⟩ := hsplit hk.1 hk'.1 (String.ofList_inj.mp h)
      rw [toString_inj_of_lt i hk.2 i' hk'.2 hi]
    | call s' l' =>
      have := String.ofList_inj.mp h
      simp at this
  | call s l =>
    cases k' with
    | pass s' i' =>
      have := String.ofList_inj.mp h
      simp at this
    | call s' l' =>
      obtain ⟨rfl, rfl⟩ := hsplit hk hk' (String.ofList_inj.mp h)
      rfl

theorem plain_of_session (session : SessionId) : session.chars.map plain = session.chars := by
  conv_rhs => rw [← List.map_id session.chars]
  refine List.map_congr_left fun c hc => if_pos ?_
  rcases session.plain c hc with h | h
  · exact Or.inl h
  · exact Or.inr (Or.inr (Or.inr (Or.inr h)))

theorem passId_eq (session : SessionId) {i : ℕ} (hi : i < maxFacts) :
    passId session i = (Key.pass session.chars i).sourceId := by
  have hlength : ("mem_".toList ++ session.chars ++ "_".toList ++ (toString i).toList).length ≤ 200 := by
    simp only [List.length_append, session.length, length_toString_of_lt i hi]
    decide
  unfold passId Key.sourceId
  rw [List.take_of_length_le hlength]

theorem evidenceId_eq (session : SessionId) (id : String) :
    evidenceId session id = (Key.call session.chars ((id.toList.map plain).take 157)).sourceId := by
  have hpre : ("agent_".toList ++ session.chars ++ "_".toList).length = 43 := by
    simp only [List.length_append, session.length]
    decide
  have hplain : ("agent_".toList ++ session.chars ++ "_".toList ++ id.toList).map plain =
      ("agent_".toList ++ session.chars ++ "_".toList) ++ id.toList.map plain := by
    simp only [List.map_append, plain_of_session]
    rfl
  unfold evidenceId Key.sourceId
  rw [hplain, List.take_append, hpre, List.take_of_length_le (by omega)]

variable {host}

theorem length_facts_le (t : Turn) : (t.facts host).length ≤ maxFacts := by
  unfold Turn.facts
  split_ifs
  · exact Nat.zero_le _
  · exact List.length_take_le _ _

theorem key_of_fact {op : Op} {f : Entry} (h : op.fact? host = some f) :
    ∃ k, op.key? host = some k ∧ k.Valid ∧ f.sourceId = k.sourceId := by
  unfold Op.key?
  rw [h, Option.bind_some]
  cases op with
  | pass t i party ok now =>
    dsimp only [Op.fact?] at h
    split_ifs at h
    obtain ⟨note, hnote, rfl⟩ := Option.map_eq_some_iff.mp h
    have hi : i < maxFacts := Nat.lt_of_lt_of_le (List.getElem?_eq_some_iff.mp hnote).1 (length_facts_le t)
    exact ⟨_, rfl, ⟨t.session.length, hi⟩, passId_eq t.session hi⟩
  | evidence c ok now =>
    dsimp only [Op.fact?] at h
    split_ifs at h
    unfold EvidenceCall.entryOf at h
    dsimp only at h
    cases hscope : c.scope with
    | none =>
      rw [hscope] at h
      cases h
    | some scope =>
      rw [hscope] at h
      dsimp only at h
      split_ifs at h
      obtain rfl := Option.some.inj h
      exact ⟨_, rfl, c.session.length, evidenceId_eq c.session c.callId⟩
  | other e now => cases h

theorem toList_sourceId (k : Key) :
    ∃ rest, k.sourceId.toList = "mem_".toList ++ rest ∨ k.sourceId.toList = "agent_".toList ++ rest := by
  cases k with
  | pass s i =>
    refine ⟨s ++ ("_".toList ++ (toString i).toList), Or.inl ?_⟩
    unfold Key.sourceId
    rw [String.toList_ofList, List.append_assoc, List.append_assoc]
  | call s l =>
    refine ⟨s ++ ("_".toList ++ l), Or.inr ?_⟩
    unfold Key.sourceId
    rw [String.toList_ofList, List.append_assoc, List.append_assoc]

theorem ofMemory_sourceId (k : Key) : OfMemory k.sourceId := by
  obtain ⟨rest, h | h⟩ := toList_sourceId k
  · unfold OfMemory
    rw [h]
    exact Or.inl (List.prefix_append _ _)
  · unfold OfMemory
    rw [h]
    exact Or.inr (List.prefix_append _ _)

theorem sourceIds_eq (ops : List Op) :
    (facts host ops).map Entry.sourceId = (ops.filterMap fun op => op.key? host).map Key.sourceId := by
  unfold facts
  rw [List.map_filterMap, List.map_filterMap]
  refine List.filterMap_congr fun op _ => ?_
  cases h : op.fact? host with
  | none => simp [Op.key?, h]
  | some f =>
    obtain ⟨k, hk, -, hid⟩ := key_of_fact h
    simp [hk, hid]

/-! ### Rows -/

theorem outbox_enqueue (e : Entry) (now : Time) (db : Db) :
    ((enqueue now e.userId e.sourceId e.text e.trusted e.stampObligationId db).outbox.map Entry.of) =
      if ∃ r ∈ db.outbox, r.sourceId = e.sourceId then db.outbox.map Entry.of else db.outbox.map Entry.of ++ [e] := by
  unfold enqueue
  dsimp only
  split_ifs
  · rfl
  · rw [List.map_append]
    rfl

theorem sourceId_of_step {db : Db} {op : Op} {r : OutboxRow} (hr : r ∈ (step host db op).outbox) :
    r ∈ db.outbox ∨ ∃ e, op.entryOf host = some e ∧ r.sourceId = e.sourceId := by
  unfold step at hr
  cases he : op.entryOf host with
  | none =>
    rw [he] at hr
    exact Or.inl hr
  | some e =>
    rw [he] at hr
    unfold enqueue at hr
    dsimp only at hr
    split_ifs at hr
    · exact Or.inl hr
    · rcases List.mem_append.mp hr with hr | hr
      · exact Or.inl hr
      · rw [List.mem_singleton.mp hr]
        exact Or.inr ⟨e, rfl, rfl⟩

theorem memories_step {db : Db} {op : Op}
    (hnew : ∀ f ∈ op.fact? host, ∀ r ∈ db.outbox, r.sourceId ≠ f.sourceId) :
    memories (step host db op) = memories db ++ (op.fact? host).toList := by
  unfold step memories
  cases hf : op.fact? host with
  | some f =>
    have he : op.entryOf host = some f := by
      cases op with
      | pass | evidence => exact hf
      | other e now => cases hf
    obtain ⟨k, -, -, hid⟩ := key_of_fact hf
    have hmem : OfMemory f.sourceId := hid ▸ ofMemory_sourceId k
    have hno : ¬ ∃ r ∈ db.outbox, r.sourceId = f.sourceId := fun ⟨r, hr, heq⟩ => hnew f hf r hr heq
    rw [he]
    dsimp only
    rw [outbox_enqueue, if_neg hno, List.filter_append]
    simp [hmem]
  | none =>
    rw [Option.toList_none, List.append_nil]
    cases op with
    | other e now =>
      dsimp only [Op.entryOf]
      rw [outbox_enqueue]
      split_ifs
      · rfl
      · rw [List.filter_append]
        simp [e.other]
    | pass t i party ok now =>
      have he : (Op.pass t i party ok now).entryOf host = none := hf
      rw [he]
    | evidence c ok now =>
      have he : (Op.evidence c ok now).entryOf host = none := hf
      rw [he]

theorem facts_cons (op : Op) (ops : List Op) : facts host (op :: ops) = (op.fact? host).toList ++ facts host ops := by
  unfold facts
  rw [List.filterMap_cons]
  cases op.fact? host <;> rfl

theorem memories_run {ops : List Op} {db : Db}
    (hnew : ∀ f ∈ facts host ops, ∀ r ∈ db.outbox, r.sourceId ≠ f.sourceId)
    (hids : ((facts host ops).map Entry.sourceId).Nodup) :
    memories (run (step host) db ops) = memories db ++ facts host ops := by
  induction ops generalizing db with
  | nil => exact (List.append_nil _).symm
  | cons op ops ih =>
    rw [facts_cons] at hnew hids ⊢
    rw [List.map_append, List.nodup_append] at hids
    obtain ⟨-, hids, hdisjoint⟩ := hids
    have hnew₀ : ∀ f ∈ op.fact? host, ∀ r ∈ db.outbox, r.sourceId ≠ f.sourceId := fun f hf =>
      hnew f (List.mem_append_left _ (Option.mem_toList.mpr hf))
    rw [run_cons, ih ?_ hids, memories_step hnew₀, List.append_assoc]
    intro f hf r hr heq
    rcases sourceId_of_step hr with hr | ⟨e, he, hid⟩
    · exact hnew f (List.mem_append_right _ hf) r hr heq
    · obtain ⟨op', -, hf'⟩ := List.mem_filterMap.mp hf
      obtain ⟨k, -, -, hk⟩ := key_of_fact hf'
      cases op with
      | other e' now =>
        obtain rfl := Option.some.inj he
        refine e'.other ?_
        rw [← hid, heq, hk]
        exact ofMemory_sourceId k
      | pass t i party ok now =>
        have hmem : e ∈ ((Op.pass t i party ok now).fact? host).toList := Option.mem_toList.mpr he
        exact hdisjoint _ (List.mem_map_of_mem hmem) _ (List.mem_map_of_mem hf) (hid.symm.trans heq)
      | evidence c ok now =>
        have hmem : e ∈ ((Op.evidence c ok now).fact? host).toList := Option.mem_toList.mpr he
        exact hdisjoint _ (List.mem_map_of_mem hmem) _ (List.mem_map_of_mem hf) (hid.symm.trans heq)

def bare : Host := ⟨id, id⟩

def turn (ownerSaid fact : String) : Turn where
  tenantId := "shop"
  session := ⟨"11111111-1111-1111-1111-111111111111".toList, by decide, List.all_iff_forall_prop.mp (by decide)⟩
  enabled := true
  saved := false
  ownerSaid := ownerSaid
  answer := some [⟨"shop", "", fact⟩]

def twoTurns : List Op :=
  (rememberFromTurn bare (turn "we are closed on Sundays" "Closed on Sundays") (fun _ => none) (fun _ => true) 0).1 ++
    (rememberFromTurn bare (turn "salaries go out on the 5th" "Salaries on the 5th") (fun _ => none) (fun _ => true)
      600).1

end Smara.Server.Memory
