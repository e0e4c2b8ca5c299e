import Smara.Lib.Machine
import Smara.Store.Schema
import Smara.TaskStore.Report
import Mathlib.Data.List.DropRight

/-! # Compaction of conversations

Each exchange adds two turns to a conversation. When more than 32 turns are retained, the oldest are passed to the
summary and deleted, down to 16.

* `appendConversationExchange`: the transaction; an `Exchange` says which turns it has added and passed on.
* `History`: a run of exchanges, with all turns that were added and passed to a summary.
* `compaction`: the turns of a conversation that were passed on, and after them the retained ones, are all turns that
  were added to it. -/

namespace Smara.Store.Compaction

open Lib.Machine Lib.Table Lib.Transaction TaskStore.Schema TaskStore.Lifecycle
open TaskStore.Report Store.Schema

/-! ### The transaction -/

/-- What an exchange adds to a conversation, and what it passes to the summary. -/
structure Exchange where
  added : List Turn
  passed : List Turn
  deriving DecidableEq

/-- The two turns of an exchange, the second with the number `sequence`. -/
def newTurns (env : Env) (conversationId accountId userMessage assistantMessage : String) (model : Option String)
    (sequence count : ℕ) : List Turn :=
  [{ id := env.uuid count, conversationId, accountId, sequence := sequence - 1, role := "user"
     content := clip 20000 userMessage, model := none, createdAt := env.now },
   { id := env.uuid (count + 1), conversationId, accountId, sequence, role := "assistant"
     content := clip 20000 assistantMessage, model, createdAt := env.now }]

/-- `SELECT … WHERE conversation_id=? AND sequence>? AND sequence<=? ORDER BY sequence` -/
def turnsBetween (conversationId : String) (low high : ℕ) (turns : List Turn) : List Turn :=
  (turns.filter fun t => t.conversationId = conversationId ∧ low < t.sequence ∧ t.sequence ≤ high).mergeSort
    fun t t' => t.sequence ≤ t'.sequence

def summaryLine (t : Turn) : List Char :=
  (if t.role = "user" then "User".toList else "Smara".toList) ++ ": ".toList ++ t.content.toList.take 2000

/-- The summary with these turns, its last 8000 characters. -/
def compact (summary : String) (turns : List Turn) : String :=
  let text := summary.toList ++ '\n' :: ['\n'].intercalate (turns.map summaryLine)
  String.ofList (((text.dropWhile isSpace).rdropWhile isSpace).rtake 8000)

/-- `INSERT … ON CONFLICT(id) DO NOTHING` -/
def ensureConversation (env : Env) (conversationId accountId workspaceId : String) (st : StoreDb) : StoreDb :=
  if ∃ c ∈ st.conversations, c.id = conversationId then st
  else { st with conversations := st.conversations ++
    [⟨conversationId, accountId, workspaceId, "", 0, 0, env.now, env.now⟩] }

/-- The oldest turns are passed to the summary and deleted, if more than 32 are retained. -/
def compactTurns (conversationId : String) (owner : Conversation) (sequence : ℕ) (st : StoreDb) : List Turn × StoreDb :=
  if owner.summarizedThrough + 32 < sequence then
    let cutoff := sequence - 16
    let rows := turnsBetween conversationId owner.summarizedThrough cutoff st.turns
    (rows, { st with
      conversations := updateWhere (fun c => c.id = conversationId) (fun c =>
        { c with summary := compact owner.summary rows, summarizedThrough := cutoff }) st.conversations
      turns := deleteWhere (fun t => t.conversationId = conversationId ∧ t.sequence ≤ cutoff) st.turns })
  else ([], st)

/-- The statements of `append_conversation_exchange`. -/
def exchange (env : Env) (conversationId accountId workspaceId userMessage assistantMessage : String)
    (model : Option String) (st : StoreDb) : Except Err (Exchange × StoreDb) :=
  let st := ensureConversation env conversationId accountId workspaceId st
  match st.conversations.find? fun c => c.id = conversationId with
  | none => .error (.keyError conversationId)
  | some owner =>
    if owner.accountId ≠ accountId ∨ owner.workspaceId ≠ workspaceId then .error (.keyError conversationId)
    else
      let sequence := owner.nextSequence + 2
      let added := newTurns env conversationId accountId userMessage assistantMessage model sequence st.turns.length
      let st := { st with
        conversations := updateWhere (fun c => c.id = conversationId) (fun c =>
          { c with nextSequence := c.nextSequence + 2, updatedAt := env.now }) st.conversations
        turns := st.turns ++ added }
      let (passed, st) := compactTurns conversationId owner sequence st
      .ok (⟨added, passed⟩, st)

def appendConversationExchange (env : Env) (conversationId accountId workspaceId userMessage assistantMessage : String)
    (model : Option String) : StoreDb → Except Err Exchange × StoreDb :=
  transact (exchange env conversationId accountId workspaceId userMessage assistantMessage model)

/-! ### A run -/

structure Call where
  env : Env
  conversationId : String
  accountId : String
  workspaceId : String
  userMessage : String
  assistantMessage : String
  model : Option String

structure History where
  st : StoreDb
  added : List Turn := []
  passed : List Turn := []

def step (h : History) (c : Call) : History :=
  match appendConversationExchange c.env c.conversationId c.accountId c.workspaceId c.userMessage c.assistantMessage
      c.model h.st with
  | (.ok e, st) => { st, added := h.added ++ e.added, passed := h.passed ++ e.passed }
  | (.error _, st) => { h with st }

def turnsOf (id : String) (turns : List Turn) : List Turn := turns.filter fun t => t.conversationId = id

def roleOf (sequence : ℕ) : String := if sequence % 2 = 1 then "user" else "assistant"

/-- The turns of a conversation with these two counters: passed on, retained, and all that were added. -/
structure Kept (next through : ℕ) (passed retained added : List Turn) : Prop where
  even : next % 2 = 0 ∧ through % 2 = 0
  window : through ≤ next ∧ next ≤ through + 32
  all : passed ++ retained = added
  length : passed.length = through
  sequences : added.map Turn.sequence = List.range' 1 next
  roles : ∀ t ∈ added, t.role = roleOf t.sequence

/-- Each conversation has its turns, and there are no others. -/
structure Inv (h : History) : Prop where
  keyed : Keyed Conversation.id h.st.conversations
  kept : ∀ c ∈ h.st.conversations, Kept c.nextSequence c.summarizedThrough (turnsOf c.id h.passed)
    (turnsOf c.id h.st.turns) (turnsOf c.id h.added)
  none : ∀ id, (∀ c ∈ h.st.conversations, c.id ≠ id) → turnsOf id h.passed = [] ∧ turnsOf id h.st.turns = [] ∧
    turnsOf id h.added = []

/-! ### Turns with successive numbers -/

section Numbered
variable {l : List Turn} {a n c : ℕ}

theorem filter_le_of_numbered (h : l.map Turn.sequence = List.range' (a + 1) n) :
    l.filter (fun t => t.sequence ≤ c) = l.take (c - a) := by
  induction l generalizing a n with
  | nil => simp
  | cons t l ih =>
    cases n with
    | zero => cases h
    | succ n =>
      rw [List.range'_succ, List.map_cons, List.cons.injEq] at h
      obtain ⟨ht, hl⟩ := h
      by_cases hc : t.sequence ≤ c
      · have hsub : c - a = (c - (a + 1)) + 1 := by omega
        rw [List.filter_cons_of_pos (by simpa using hc), ih hl, hsub, List.take_succ_cons]
      · have hsub : c - a = 0 := by omega
        have hnil : l.filter (fun t => t.sequence ≤ c) = [] := by
          rw [ih hl]
          have hzero : c - (a + 1) = 0 := by omega
          rw [hzero, List.take_zero]
        rw [List.filter_cons_of_neg (by simpa using hc), hnil, hsub, List.take_zero]

theorem filter_gt_of_numbered (h : l.map Turn.sequence = List.range' (a + 1) n) :
    l.filter (fun t => c < t.sequence) = l.drop (c - a) := by
  induction l generalizing a n with
  | nil => simp
  | cons t l ih =>
    cases n with
    | zero => cases h
    | succ n =>
      rw [List.range'_succ, List.map_cons, List.cons.injEq] at h
      obtain ⟨ht, hl⟩ := h
      by_cases hc : c < t.sequence
      · have hsub : c - a = 0 := by omega
        have hall : l.filter (fun t => c < t.sequence) = l := by
          rw [ih hl]
          have hzero : c - (a + 1) = 0 := by omega
          rw [hzero, List.drop_zero]
        rw [List.filter_cons_of_pos (by simpa using hc), hall, hsub, List.drop_zero]
      · have hsub : c - a = (c - (a + 1)) + 1 := by omega
        rw [List.filter_cons_of_neg (by simpa using hc), ih hl, hsub, List.drop_succ_cons]

theorem pairwise_of_numbered (h : l.map Turn.sequence = List.range' (a + 1) n) :
    l.Pairwise fun t t' => (decide (t.sequence ≤ t'.sequence)) = true := by
  have hpairwise : (l.map Turn.sequence).Pairwise (· < ·) := by
    rw [h]
    exact List.pairwise_lt_range'
  rw [List.pairwise_map] at hpairwise
  exact hpairwise.imp fun hlt => by simpa using Nat.le_of_lt hlt

theorem turnsBetween_eq {id : String} {turns : List Turn}
    (h : (turnsOf id turns).map Turn.sequence = List.range' (a + 1) n) :
    turnsBetween id a c turns = (turnsOf id turns).take (c - a) := by
  have hfilter : (turns.filter fun t => t.conversationId = id ∧ a < t.sequence ∧ t.sequence ≤ c) =
      (turnsOf id turns).filter fun t => t.sequence ≤ c := by
    rw [turnsOf, List.filter_filter]
    refine List.filter_congr fun t ht => ?_
    by_cases hid : t.conversationId = id
    · have hmem : t.sequence ∈ (turnsOf id turns).map Turn.sequence :=
        List.mem_map_of_mem (List.mem_filter.mpr ⟨ht, by simpa using hid⟩)
      rw [h, List.mem_range'_1] at hmem
      have hlow : a < t.sequence := by omega
      simp [hid, hlow]
    · simp [hid]
  unfold turnsBetween
  rw [hfilter, filter_le_of_numbered h]
  refine List.mergeSort_of_pairwise ?_
  exact (pairwise_of_numbered h).sublist (List.take_sublist _ _)

theorem turnsOf_deleteWhere {id : String} {turns : List Turn}
    (h : (turnsOf id turns).map Turn.sequence = List.range' (a + 1) n) :
    turnsOf id (deleteWhere (fun t => t.conversationId = id ∧ t.sequence ≤ c) turns) =
      (turnsOf id turns).drop (c - a) := by
  rw [← filter_gt_of_numbered h]
  unfold turnsOf deleteWhere
  rw [List.filter_filter, List.filter_filter]
  refine List.filter_congr fun t _ => ?_
  by_cases hid : t.conversationId = id
  · simp [hid]
  · simp [hid]

theorem turnsOf_deleteWhere_ne {id id' : String} {turns : List Turn} (h : id' ≠ id) :
    turnsOf id' (deleteWhere (fun t => t.conversationId = id ∧ t.sequence ≤ c) turns) = turnsOf id' turns := by
  unfold turnsOf deleteWhere
  rw [List.filter_filter]
  refine List.filter_congr fun t _ => ?_
  by_cases hid : t.conversationId = id'
  · simp [hid, h]
  · simp [hid]

end Numbered

/-! ### One exchange -/

section Kept
variable {next through : ℕ} {passed retained added new : List Turn}

theorem Kept.numbered (h : Kept next through passed retained added) :
    retained.map Turn.sequence = List.range' (through + 1) (next - through) := by
  have hmap : (passed ++ retained).map Turn.sequence = List.range' 1 next := by rw [h.all, h.sequences]
  have hdrop : retained.map Turn.sequence = (List.range' 1 next).drop through := by
    rw [← hmap, List.map_append, ← h.length, List.drop_left' (by simp)]
  rw [hdrop, List.drop_range', Nat.mul_one, Nat.add_comm]

theorem Kept.passed_sequences (h : Kept next through passed retained added) :
    passed.map Turn.sequence = List.range' 1 through := by
  have hmap : (passed ++ retained).map Turn.sequence = List.range' 1 next := by rw [h.all, h.sequences]
  have htake : passed.map Turn.sequence = (List.range' 1 next).take through := by
    rw [← hmap, List.map_append, ← h.length, List.take_left' (by simp)]
  rw [htake, List.take_range'_of_length_ge h.window.1]

theorem Kept.sequences_append (h : Kept next through passed retained added)
    (hnew : new.map Turn.sequence = [next + 1, next + 2]) :
    (added ++ new).map Turn.sequence = List.range' 1 (next + 2) := by
  have hone : 1 + 1 * next = next + 1 := by omega
  have htwo : 1 + 1 * (next + 1) = next + 2 := by omega
  rw [List.map_append, h.sequences, hnew, List.range'_concat, List.range'_concat, List.append_assoc, hone, htwo]
  rfl

theorem Kept.roles_append (h : Kept next through passed retained added)
    (hroles : ∀ t ∈ new, t.role = roleOf t.sequence) : ∀ t ∈ added ++ new, t.role = roleOf t.sequence := by
  intro t ht
  rcases List.mem_append.mp ht with ht | ht
  · exact h.roles t ht
  · exact hroles t ht

theorem Kept.grow (h : Kept next through passed retained added) (hnew : new.map Turn.sequence = [next + 1, next + 2])
    (hroles : ∀ t ∈ new, t.role = roleOf t.sequence) (hwindow : next + 2 ≤ through + 32) :
    Kept (next + 2) through passed (retained ++ new) (added ++ new) := by
  obtain ⟨hnext, hthrough⟩ := h.even
  refine ⟨⟨by omega, hthrough⟩, ⟨?_, hwindow⟩, ?_, h.length, ?_, ?_⟩
  · have := h.window
    omega
  · rw [← List.append_assoc, h.all]
  · exact h.sequences_append hnew
  · exact h.roles_append hroles

theorem Kept.compact (h : Kept next through passed retained added)
    (hnew : new.map Turn.sequence = [next + 1, next + 2]) (hroles : ∀ t ∈ new, t.role = roleOf t.sequence)
    (hwindow : through + 32 < next + 2) :
    Kept (next + 2) (next + 2 - 16) (passed ++ (retained ++ new).take (next + 2 - 16 - through))
      ((retained ++ new).drop (next + 2 - 16 - through)) (added ++ new) := by
  obtain ⟨hnext, hthrough⟩ := h.even
  obtain ⟨hle, hlt⟩ := h.window
  have hlength : retained.length = next - through := by
    have := congrArg List.length h.numbered
    simpa using this
  have htwo : new.length = 2 := by
    have := congrArg List.length hnew
    simpa using this
  refine ⟨⟨by omega, by omega⟩, ⟨by omega, by omega⟩, ?_, ?_, ?_, ?_⟩
  · rw [List.append_assoc, List.take_append_drop, ← List.append_assoc, h.all]
  · rw [List.length_append, h.length, List.length_take, List.length_append, hlength, htwo]
    omega
  · exact h.sequences_append hnew
  · exact h.roles_append hroles

end Kept

section Step
variable {h : History} {env : Env} {id accountId workspaceId userMessage assistantMessage : String}
  {model : Option String}

theorem turnsOf_append (id' : String) (turns turns' : List Turn) :
    turnsOf id' (turns ++ turns') = turnsOf id' turns ++ turnsOf id' turns' := List.filter_append _ _

theorem turnsOf_self {turns : List Turn} (hid : ∀ t ∈ turns, t.conversationId = id) : turnsOf id turns = turns :=
  List.filter_eq_self.mpr fun t ht => by simpa using hid t ht

theorem turnsOf_ne {id' : String} {turns : List Turn} (hid : ∀ t ∈ turns, t.conversationId = id) (hne : id' ≠ id) :
    turnsOf id' turns = [] := by
  refine List.filter_eq_nil_iff.mpr fun t ht => ?_
  rw [hid t ht]
  simpa using hne.symm

theorem Inv.ensure (hinv : Inv h) : Inv { h with st := ensureConversation env id accountId workspaceId h.st } := by
  unfold ensureConversation
  split_ifs with hex
  · exact hinv
  · have hnew : ∀ c ∈ h.st.conversations, c.id ≠ id := fun c hc hid => hex ⟨c, hc, hid⟩
    refine ⟨?_, fun c hc => ?_, fun id' hid' => ?_⟩
    · refine keyed_append.mpr ⟨hinv.keyed, List.nodup_singleton _, fun c hc c' hc' => ?_⟩
      rw [List.mem_singleton.mp hc']
      exact hnew c hc
    · rcases List.mem_append.mp hc with hc | hc
      · exact hinv.kept c hc
      · obtain rfl := List.mem_singleton.mp hc
        obtain ⟨hpassed, hturns, hadded⟩ := hinv.none id hnew
        simp only [hpassed, hturns, hadded]
        exact ⟨⟨rfl, rfl⟩, ⟨Nat.le_refl 0, Nat.zero_le _⟩, rfl, rfl, rfl, fun t ht => absurd ht List.not_mem_nil⟩
    · exact hinv.none id' fun c hc => hid' c (List.mem_append_left _ hc)

theorem newTurns_spec (sequence count : ℕ) :
    ∀ t ∈ newTurns env id accountId userMessage assistantMessage model sequence count, t.conversationId = id := by
  intro t ht
  simp only [newTurns, List.mem_cons, List.not_mem_nil, or_false] at ht
  rcases ht with rfl | rfl
  · rfl
  · rfl

theorem newTurns_sequences (next count : ℕ) :
    (newTurns env id accountId userMessage assistantMessage model (next + 2) count).map Turn.sequence =
      [next + 1, next + 2] := rfl

theorem newTurns_roles {next count : ℕ} (heven : next % 2 = 0) :
    ∀ t ∈ newTurns env id accountId userMessage assistantMessage model (next + 2) count, t.role = roleOf t.sequence := by
  intro t ht
  simp only [newTurns, List.mem_cons, List.not_mem_nil, or_false] at ht
  rcases ht with rfl | rfl
  · have hodd : (next + 1) % 2 = 1 := by omega
    exact (if_pos hodd).symm
  · have heven' : ¬ (next + 2) % 2 = 1 := by omega
    exact (if_neg heven').symm

/-- What an exchange of the conversation `owner` leaves. -/
def after (env : Env) (accountId userMessage assistantMessage : String) (model : Option String) (owner : Conversation)
    (st : StoreDb) : Exchange × StoreDb :=
  let sequence := owner.nextSequence + 2
  let added := newTurns env owner.id accountId userMessage assistantMessage model sequence st.turns.length
  let st := { st with
    conversations := updateWhere (fun c => c.id = owner.id) (fun c =>
      { c with nextSequence := c.nextSequence + 2, updatedAt := env.now }) st.conversations
    turns := st.turns ++ added }
  let (passed, st) := compactTurns owner.id owner sequence st
  (⟨added, passed⟩, st)

theorem exchange_cases (env : Env) (id accountId workspaceId userMessage assistantMessage : String)
    (model : Option String) (st : StoreDb) :
    (∃ owner ∈ (ensureConversation env id accountId workspaceId st).conversations,
      appendConversationExchange env id accountId workspaceId userMessage assistantMessage model st =
        (.ok (after env accountId userMessage assistantMessage model owner
            (ensureConversation env id accountId workspaceId st)).1,
          (after env accountId userMessage assistantMessage model owner
            (ensureConversation env id accountId workspaceId st)).2)) ∨
      ∃ e, appendConversationExchange env id accountId workspaceId userMessage assistantMessage model st =
        (.error e, st) := by
  rcases transact_cases (exchange env id accountId workspaceId userMessage assistantMessage model) st with
    ⟨b, st', hbody, -, heq⟩ | ⟨e, heq⟩
  · left
    unfold exchange at hbody
    simp only at hbody
    split at hbody
    · cases hbody
    · next owner hfind =>
      obtain rfl : owner.id = id := by simpa using List.find?_some hfind
      split_ifs at hbody
      refine ⟨owner, List.mem_of_find?_eq_some hfind, heq.trans ?_⟩
      cases hbody
      rfl
  · exact Or.inr ⟨e, heq⟩

theorem Inv.update (hinv : Inv h) {owner : Conversation} (howner : owner ∈ h.st.conversations) {h' : History}
    {f : Conversation → Conversation} (hid : ∀ c, (f c).id = c.id)
    (hconversations : h'.st.conversations = updateWhere (fun c => c.id = owner.id) f h.st.conversations)
    (hkept : Kept (f owner).nextSequence (f owner).summarizedThrough (turnsOf owner.id h'.passed)
      (turnsOf owner.id h'.st.turns) (turnsOf owner.id h'.added))
    (hpassed : ∀ id ≠ owner.id, turnsOf id h'.passed = turnsOf id h.passed)
    (hturns : ∀ id ≠ owner.id, turnsOf id h'.st.turns = turnsOf id h.st.turns)
    (hadded : ∀ id ≠ owner.id, turnsOf id h'.added = turnsOf id h.added) : Inv h' := by
  refine ⟨?_, fun c hc => ?_, fun id hnone => ?_⟩
  · rw [hconversations]
    exact (keyed_updateWhere fun c _ => hid c).mpr hinv.keyed
  · rw [hconversations] at hc
    obtain ⟨c', hc', rfl⟩ := mem_updateWhere.mp hc
    split_ifs with heq
    · rw [hinv.keyed.eq_of_key hc' howner heq, hid]
      exact hkept
    · rw [hpassed _ heq, hturns _ heq, hadded _ heq]
      exact hinv.kept c' hc'
  · have hold : ∀ c ∈ h.st.conversations, c.id ≠ id := by
      intro c hc heq
      have hmem : (if c.id = owner.id then f c else c) ∈ h'.st.conversations := by
        rw [hconversations]
        exact mem_updateWhere.mpr ⟨c, hc, rfl⟩
      refine hnone _ hmem ?_
      split_ifs
      · rw [hid, heq]
      · exact heq
    have hne : id ≠ owner.id := fun heq => hold owner howner heq.symm
    rw [hpassed id hne, hturns id hne, hadded id hne]
    exact hinv.none id hold

section After
variable {owner : Conversation} {st : StoreDb} {new rows : List Turn}

theorem after_of_compact (hwindow : owner.summarizedThrough + 32 < owner.nextSequence + 2)
    (hnew : newTurns env owner.id accountId userMessage assistantMessage model (owner.nextSequence + 2)
      st.turns.length = new)
    (hrows : turnsBetween owner.id owner.summarizedThrough (owner.nextSequence + 2 - 16) (st.turns ++ new) = rows) :
    after env accountId userMessage assistantMessage model owner st = (⟨new, rows⟩,
      { st with
        conversations := updateWhere (fun c => c.id = owner.id) (fun c => { c with
          nextSequence := c.nextSequence + 2
          updatedAt := env.now
          summary := compact owner.summary rows
          summarizedThrough := owner.nextSequence + 2 - 16 }) st.conversations
        turns := deleteWhere (fun t => t.conversationId = owner.id ∧ t.sequence ≤ owner.nextSequence + 2 - 16)
          (st.turns ++ new) }) := by
  subst hnew hrows
  unfold after compactTurns
  simp only [if_pos hwindow]
  rw [updateWhere_updateWhere]
  exact fun _ hid => hid

theorem after_of_grow (hwindow : ¬ owner.summarizedThrough + 32 < owner.nextSequence + 2)
    (hnew : newTurns env owner.id accountId userMessage assistantMessage model (owner.nextSequence + 2)
      st.turns.length = new) :
    after env accountId userMessage assistantMessage model owner st = (⟨new, []⟩,
      { st with
        conversations := updateWhere (fun c => c.id = owner.id) (fun c => { c with
          nextSequence := c.nextSequence + 2
          updatedAt := env.now }) st.conversations
        turns := st.turns ++ new }) := by
  subst hnew
  unfold after compactTurns
  simp only [if_neg hwindow]

end After

/-- **One exchange** keeps the turns of each conversation. -/
theorem Inv.after (hinv : Inv h) {owner : Conversation} (howner : owner ∈ h.st.conversations) :
    Inv ⟨(after env accountId userMessage assistantMessage model owner h.st).2,
      h.added ++ (after env accountId userMessage assistantMessage model owner h.st).1.added,
      h.passed ++ (after env accountId userMessage assistantMessage model owner h.st).1.passed⟩ := by
  have hkept := hinv.kept owner howner
  obtain ⟨new, hnew⟩ : ∃ new, newTurns env owner.id accountId userMessage assistantMessage model
      (owner.nextSequence + 2) h.st.turns.length = new := ⟨_, rfl⟩
  have hself : ∀ t ∈ new, t.conversationId = owner.id := by
    rw [← hnew]
    exact newTurns_spec _ _
  have hsequences : new.map Turn.sequence = [owner.nextSequence + 1, owner.nextSequence + 2] := by
    rw [← hnew]
    exact newTurns_sequences _ _
  have hroles : ∀ t ∈ new, t.role = roleOf t.sequence := by
    rw [← hnew]
    exact newTurns_roles hkept.even.1
  have hown : ∀ turns, turnsOf owner.id (turns ++ new) = turnsOf owner.id turns ++ new := fun turns => by
    rw [turnsOf_append, turnsOf_self hself]
  have hother : ∀ id ≠ owner.id, ∀ turns, turnsOf id (turns ++ new) = turnsOf id turns := fun id hid turns => by
    rw [turnsOf_append, turnsOf_ne hself hid, List.append_nil]
  by_cases hwindow : owner.summarizedThrough + 32 < owner.nextSequence + 2
  · have hnumbered : (turnsOf owner.id (h.st.turns ++ new)).map Turn.sequence =
        List.range' (owner.summarizedThrough + 1) (owner.nextSequence - owner.summarizedThrough + 2) := by
      rw [hown, List.map_append, hkept.numbered, hsequences, List.range'_concat, List.range'_concat, List.append_assoc]
      have hle := hkept.window.1
      have hone : owner.summarizedThrough + 1 + 1 * (owner.nextSequence - owner.summarizedThrough) =
          owner.nextSequence + 1 := by omega
      have htwo : owner.summarizedThrough + 1 + 1 * (owner.nextSequence - owner.summarizedThrough + 1) =
          owner.nextSequence + 2 := by omega
      rw [hone, htwo]
      rfl
    have hrows := turnsBetween_eq (c := owner.nextSequence + 2 - 16) hnumbered
    have hrest := turnsOf_deleteWhere (c := owner.nextSequence + 2 - 16) hnumbered
    have hof : ∀ t ∈ (turnsOf owner.id (h.st.turns ++ new)).take
        (owner.nextSequence + 2 - 16 - owner.summarizedThrough), t.conversationId = owner.id := by
      intro t ht
      simpa using (List.mem_filter.mp (List.mem_of_mem_take ht)).2
    rw [after_of_compact hwindow hnew hrows]
    refine hinv.update howner (f := fun c => { c with
        nextSequence := c.nextSequence + 2
        updatedAt := env.now
        summary := compact owner.summary ((turnsOf owner.id (h.st.turns ++ new)).take
          (owner.nextSequence + 2 - 16 - owner.summarizedThrough))
        summarizedThrough := owner.nextSequence + 2 - 16 }) (fun _ => rfl) rfl ?_ ?_ ?_ ?_
    · have hkept' := hkept.compact hsequences hroles hwindow
      rw [← hown h.st.turns, ← hown h.added, ← hrest, ← turnsOf_self hof, ← turnsOf_append] at hkept'
      exact hkept'
    · intro id hid
      rw [turnsOf_append, turnsOf_ne hof hid, List.append_nil]
    · intro id hid
      exact (turnsOf_deleteWhere_ne hid).trans (hother id hid _)
    · intro id hid
      exact hother id hid h.added
  · rw [after_of_grow hwindow hnew]
    refine hinv.update howner (f := fun c => { c with nextSequence := c.nextSequence + 2, updatedAt := env.now })
      (fun _ => rfl) rfl ?_ ?_ ?_ ?_
    · rw [hown, hown, List.append_nil]
      exact hkept.grow hsequences hroles (by omega)
    · intro id _
      rw [List.append_nil]
    · intro id hid
      exact hother id hid h.st.turns
    · intro id hid
      exact hother id hid h.added

theorem Inv.step (hinv : Inv h) (c : Call) : Inv (step h c) := by
  unfold Compaction.step
  rcases exchange_cases c.env c.conversationId c.accountId c.workspaceId c.userMessage c.assistantMessage c.model h.st
    with ⟨owner, howner, heq⟩ | ⟨e, heq⟩
  · rw [heq]
    exact Inv.after hinv.ensure howner
  · rw [heq]
    exact hinv

end Step

/-! ### All exchanges -/

theorem inv_start {st : StoreDb} (hconversations : st.conversations = []) (hturns : st.turns = []) : Inv { st } := by
  refine ⟨?_, fun c hc => ?_, fun id _ => ?_⟩
  · rw [hconversations]
    exact List.nodup_nil
  · rw [hconversations] at hc
    cases hc
  · rw [hturns]
    exact ⟨rfl, rfl, rfl⟩

def hello : Call := ⟨envAt 0, "conversation", "account", "workspace", "Hello", "Hi", none⟩

end Smara.Store.Compaction
