import Mathlib.Data.List.Dedup
import Mathlib.Data.List.Sort
import Smara.Lib.Each
import Smara.Native.Wire

/-! # Streamed responses

The adapter reads the chunks of a chat model, adds up the fragments of the text and of each call, and writes events to the
agent: the text as it comes, and the calls at the end, if all of them are complete and of registered tools.

* `stream`: the events of a response, and how it ends.
* `fragments`, `deltas`, `callAt`: what the lines say, whatever their order.
* `items_complete`: the items that are done are those of complete calls, one for each index. -/

namespace Smara.Native.Stream

open Lib.Each Native.Wire

/-! ### Chunks -/

structure CallDelta where
  index : ℤ
  id : Option String := none
  name : Option String := none
  arguments : Option String := none
  deriving DecidableEq

/-- A choice of a chunk; an entry of `tool_calls` is `none` if it raises. -/
structure Choice where
  index : Option ℤ := some 0
  refusal : Option String := none
  content : Option String := none
  toolCalls : List (Option CallDelta) := []
  finishReason : Option String := none

structure Counts where
  promptTokens : ℕ
  completionTokens : ℕ
  totalTokens : ℕ
  deriving DecidableEq

/-- What a provider says of its usage: three counts, an object without them, or something that raises in the end. -/
inductive Usage
  | counts (counts : Counts)
  | unknown
  | raises
  deriving DecidableEq

/-- A chunk; a choice is `none` if it raises before its calls. -/
structure Chunk where
  usage : Option Usage := none
  choices : List (Option Choice) := []

/-- A line of the stream: one that is not data, the end mark, a chunk, or something that raises. -/
inductive Line
  | other
  | done
  | data (chunk : Chunk)
  | raises

/-! ### Events -/

inductive OutputItem
  | message (id text : String)
  | tool (item : ToolItem)
  deriving DecidableEq

inductive Event
  | created
  | messageAdded
  | textDelta (delta : String)
  | itemAdded (index : ℕ) (item : ToolItem)
  | fieldDelta (index : ℕ) (callId delta : String)
  | itemDone (index : ℕ) (item : OutputItem)
  | completed (output : List OutputItem) (usage : Option Counts)
  | incomplete (reason : String)
  | failed
  deriving DecidableEq

/-- The kinds of exceptions that `do_POST` tells apart. -/
inductive Raised
  | budget
  | admission
  | pipe
  | other
  deriving DecidableEq

abbrev Out (α : Type) := List Event × Except Raised α

section Out
variable {α β : Type}

def ret (a : α) : Out α := ([], .ok a)

def raised (e : Raised) : Out α := ([], .error e)

def emit (events : List Event) (a : α) : Out α := (events, .ok a)

def Out.andThen (x : Out α) (f : α → Out β) : Out β :=
  match x.2 with
  | .ok a => (x.1 ++ (f a).1, (f a).2)
  | .error e => (x.1, .error e)

def loop (f : β → α → Out β) : β → List α → Out β
  | b, [] => ret b
  | b, a :: as => (f b a).andThen fun b => loop f b as

end Out

/-! ### The response -/

/-- The variables of `_stream`. The calls are in the order in which they came. -/
structure Acc where
  text : String := ""
  calls : List (ℤ × Call) := []
  usage : Usage := .unknown
  finish : Option String := none

def truthy (s : Option String) : Option String := s.filter (· ≠ "")

/-- A fragment is added to a call. -/
def extend (d : CallDelta) (call : Call) : Call where
  id := (truthy d.id).getD call.id
  name := call.name ++ d.name.getD ""
  arguments := call.arguments ++ d.arguments.getD ""

def emptyCall : Call := ⟨"", "", ""⟩

/-- `calls.setdefault(…)`, and the fragments. -/
def addDelta (acc : Acc) : Option CallDelta → Out Acc
  | none => raised .other
  | some d =>
    ret { acc with calls :=
      if d.index ∈ acc.calls.map Prod.fst then acc.calls.map fun x => if x.1 = d.index then (x.1, extend d x.2) else x
      else acc.calls ++ [(d.index, extend d emptyCall)] }

def Choice.fragment (c : Choice) : Option String := (truthy c.refusal).or (truthy c.content)

def addFragment (acc : Acc) : Option String → Out Acc
  | none => ret acc
  | some s => emit ((if acc.text = "" then [.messageAdded] else []) ++ [.textDelta s]) { acc with text := acc.text ++ s }

def addChoice (acc : Acc) : Option Choice → Out Acc
  | none => raised .other
  | some c =>
    if c.index ≠ some 0 then ret acc
    else
      (addFragment acc c.fragment).andThen fun acc =>
        (loop addDelta acc c.toolCalls).andThen fun acc =>
          ret { acc with finish := (truthy c.finishReason).or acc.finish }

def addChunk (acc : Acc) (chunk : Chunk) : Out Acc :=
  loop addChoice { acc with usage := chunk.usage.getD acc.usage } chunk.choices

/-- The lines up to the end mark: whether it was there. -/
def readLines : Acc → List Line → Out (Bool × Acc)
  | acc, [] => ret (false, acc)
  | acc, .other :: lines => readLines acc lines
  | acc, .done :: _ => ret (true, acc)
  | acc, .data chunk :: lines => (addChunk acc chunk).andThen fun acc => readLines acc lines
  | _, .raises :: _ => raised .other

/-- `uuid4`, for the message and for the calls. -/
structure Ids where
  message : String
  tool : ℤ → String

section Finish
variable (host : Host) (mapping : List (String × ToolSpec)) (ids : Ids)

def itemOf (x : ℤ × Call) : Option ToolItem := if x.2.id = "" then none else responseTool host mapping (ids.tool x.1) x.2

/-- `sorted(calls)` -/
def sortCalls (calls : List (ℤ × Call)) : List (ℤ × Call) := calls.mergeSort fun x y => x.1 ≤ y.1

/-- The items of a response that is complete. -/
def outputOf (acc : Acc) : Option (List OutputItem) :=
  ((sortCalls acc.calls).mapM (itemOf host mapping ids)).map fun items =>
    (if acc.text = "" then [] else [.message ids.message acc.text]) ++ items.map .tool

def itemEvents : OutputItem × ℕ → List Event
  | (.message id text, index) => [.itemDone index (.message id text)]
  | (.tool item, index) =>
    [.itemAdded index { item with field := "" }, .fieldDelta index item.callId item.field, .itemDone index (.tool item)]

/-- The events of the items, and the completion. -/
def complete (acc : Acc) : Out Unit :=
  match outputOf host mapping ids acc with
  | none => raised .other
  | some [] => raised .other
  | some output =>
    (emit (output.zipIdx.flatMap itemEvents) ()).andThen fun _ =>
      match acc.usage with
      | .counts counts => emit [.completed output (some counts)] ()
      | .unknown => emit [.completed output none] ()
      | .raises => raised .other

/-- The end of `_stream`. -/
def finishStream (done : Bool) (acc : Acc) : Out Unit :=
  if ¬ done then raised .other
  else
    match acc.finish with
    | some "content_filter" => emit [.incomplete "content_filter"] ()
    | some "length" => emit [.incomplete "max_output_tokens"] ()
    | some "stop" | some "tool_calls" => complete host mapping ids acc
    | _ => raised .other

/-- `_stream`: the events it writes, as long as no write raises. -/
def stream (lines : List Line) : Out Unit :=
  (emit [.created] ()).andThen fun _ =>
    (readLines {} lines).andThen fun x => finishStream host mapping ids x.1 x.2

end Finish

/-! ### What the lines say -/

def Line.isDone : Line → Bool
  | .done => true
  | _ => false

def consumed (lines : List Line) : List Line := lines.takeWhile fun l => ¬ l.isDone

def Ended (lines : List Line) : Prop := ∃ l ∈ lines, l.isDone = true

def Line.isRaise : Line → Bool
  | .raises => true
  | _ => false

def Line.choices : Line → List (Option Choice)
  | .data chunk => chunk.choices
  | _ => []

def counting (cs : List (Option Choice)) : List Choice := (cs.filterMap id).filter fun c => c.index = some 0

def textOf (cs : List (Option Choice)) : String := String.join ((counting cs).filterMap Choice.fragment)

def finishOf (cs : List (Option Choice)) : Option String := ((counting cs).filterMap fun c => truthy c.finishReason).getLast?

def deltasOf (cs : List (Option Choice)) : List CallDelta := (counting cs).flatMap fun c => c.toolCalls.filterMap id

/-- A call from its fragments: the last id, and the fragments of the name and of the arguments in their order. -/
def gather (ds : List CallDelta) : Call where
  id := (ds.filterMap fun d => truthy d.id).getLast?.getD ""
  name := String.join (ds.map fun d => d.name.getD "")
  arguments := String.join (ds.map fun d => d.arguments.getD "")

def choicesOf (lines : List Line) : List (Option Choice) := (consumed lines).flatMap Line.choices

def fragmentsAt (i : ℤ) (lines : List Line) : List CallDelta := (deltasOf (choicesOf lines)).filter fun d => d.index = i

def indices (lines : List Line) : List ℤ := ((deltasOf (choicesOf lines)).map CallDelta.index).dedup.mergeSort (· ≤ ·)

/-- The response may be done: it came to its end, and every call is complete. -/
structure Complete (host : Host) (mapping : List (String × ToolSpec)) (lines : List Line) : Prop where
  ended : Ended lines
  finish : finishOf (choicesOf lines) = some "stop" ∨ finishOf (choicesOf lines) = some "tool_calls"
  calls : ∀ i ∈ indices lines, (gather (fragmentsAt i lines)).id ≠ "" ∧
    (∃ spec, (mapping.find? fun x => x.1 = (gather (fragmentsAt i lines)).name) = some spec) ∧
      ∃ fields, host.loads (gather (fragmentsAt i lines)).arguments = some (.object fields)

/-- The item is that of the call. A custom tool gets the input that the arguments say. -/
structure Calls (host : Host) (mapping : List (String × ToolSpec)) (call : Call) (item : ToolItem) : Prop where
  callId : item.callId = call.id
  spec : ∃ spec, (mapping.find? fun x => x.1 = call.name) = some (call.name, spec) ∧ item.name = spec.name ∧
    item.kind = spec.kind ∧ item.space = spec.space.filter (· ≠ "")
  function : item.kind = .function → item.field = call.arguments
  custom : item.kind = .custom → host.loads call.arguments = some (.object [("input", .text item.field)])

/-- Nothing of the lines before the end mark raises. -/
def Readable (lines : List Line) : Prop :=
  ∀ l ∈ consumed lines, l.isRaise = false ∧ ∀ c ∈ l.choices, ∃ x, c = some x ∧ (x.index = some 0 → none ∉ x.toolCalls)

def doneItems (events : List Event) : List (OutputItem × ℕ) :=
  events.filterMap fun e => match e with | .itemDone index item => some (item, index) | _ => none

/-- What the agent gets of a stream: no call before all are complete, then the text and one item for each index, whatever the
order in which the fragments of different indices came. -/
structure OnlyComplete (host : Host) (mapping : List (String × ToolSpec)) (ids : Ids) (lines : List Line) : Prop where
  complete : (∃ k item, Event.itemDone k (.tool item) ∈ (stream host mapping ids lines).1) → Complete host mapping lines
  items : doneItems (stream host mapping ids lines).1 ≠ [] →
    ∃ items, doneItems (stream host mapping ids lines).1 =
        ((if textOf (choicesOf lines) = "" then [] else [.message ids.message (textOf (choicesOf lines))]) ++
          items.map OutputItem.tool).zipIdx ∧
      List.Forall₂ (fun i item => Calls host mapping (gather (fragmentsAt i lines)) item) (indices lines) items
  order : ∀ lines', Readable lines → Readable lines' → (Ended lines ↔ Ended lines') →
    textOf (choicesOf lines) = textOf (choicesOf lines') → finishOf (choicesOf lines) = finishOf (choicesOf lines') →
    (∀ i, fragmentsAt i lines = fragmentsAt i lines') →
    doneItems (stream host mapping ids lines).1 = doneItems (stream host mapping ids lines').1

section Proofs
variable {host : Host} {mapping : List (String × ToolSpec)} {ids : Ids} {acc acc' : Acc} {lines : List Line}
variable {cs : List (Option Choice)} {ds : List CallDelta}

/-! ### Loops -/

theorem andThen_eq_ok {α β : Type} {x : Out α} {f : α → Out β} {b : β} (h : (x.andThen f).2 = .ok b) :
    ∃ a, x.2 = .ok a ∧ (f a).2 = .ok b ∧ (x.andThen f).1 = x.1 ++ (f a).1 := by
  unfold Out.andThen at h ⊢
  cases hx : x.2 with
  | error e =>
    rw [hx] at h
    cases h
  | ok a =>
    rw [hx] at h
    exact ⟨a, rfl, h, rfl⟩

theorem loop_inv {α β : Type} {f : β → α → Out β} {I : List α → β → Prop} (pre : List α) {as : List α} {b b' : β}
    (hstep : ∀ pre b a b', I pre b → (f b a).2 = .ok b' → I (pre ++ [a]) b') (hstart : I pre b)
    (h : (loop f b as).2 = .ok b') : I (pre ++ as) b' := by
  induction as generalizing pre b with
  | nil =>
    obtain rfl : b = b' := Except.ok.inj h
    rw [List.append_nil]
    exact hstart
  | cons a as ih =>
    obtain ⟨b₁, hone, hrest, -⟩ := andThen_eq_ok h
    have hall := ih (pre ++ [a]) (hstep pre b a b₁ hstart hone) hrest
    rwa [List.append_assoc] at hall

def Emits {α : Type} (P : Event → Prop) (x : Out α) : Prop := ∀ e ∈ x.1, P e

theorem emits_andThen {α β : Type} {P : Event → Prop} {x : Out α} {f : α → Out β} (hx : Emits P x)
    (hf : ∀ a, Emits P (f a)) : Emits P (x.andThen f) := by
  intro e he
  unfold Out.andThen at he
  split at he
  · rcases List.mem_append.mp he with he | he
    · exact hx e he
    · exact hf _ e he
  · exact hx e he

theorem emits_loop {α β : Type} {P : Event → Prop} {f : β → α → Out β} (hf : ∀ b a, Emits P (f b a)) {b : β} {as : List α} :
    Emits P (loop f b as) := by
  induction as generalizing b with
  | nil => simp [Emits, loop, ret]
  | cons a as ih => exact emits_andThen (hf b a) fun _ => ih

/-! ### Reading -/

def OfText : Event → Prop
  | .messageAdded => True
  | .textDelta _ => True
  | _ => False

theorem emits_addChoice (acc : Acc) (c : Option Choice) : Emits OfText (addChoice acc c) := by
  have hdelta : ∀ (acc : Acc) (d : Option CallDelta), Emits OfText (addDelta acc d) := by
    intro acc d
    cases d <;> simp [Emits, addDelta, raised, ret]
  cases c with
  | none => simp [Emits, addChoice, raised]
  | some c =>
    simp only [addChoice]
    split_ifs
    · simp [Emits, ret]
    · refine emits_andThen ?_ fun _ => emits_andThen (emits_loop hdelta) fun _ => by simp [Emits, ret]
      unfold addFragment
      split
      · simp [Emits, ret]
      · intro e he
        rcases List.mem_append.mp he with he | he
        · split_ifs at he
          · rw [List.mem_singleton.mp he]
            trivial
          · simp at he
        · rw [List.mem_singleton.mp he]
          trivial

theorem emits_readLines : Emits OfText (readLines acc lines) := by
  induction lines generalizing acc with
  | nil => simp [Emits, readLines, ret]
  | cons l lines ih =>
    cases l with
    | other => exact ih
    | done => simp [Emits, readLines, ret]
    | data chunk => exact emits_andThen (emits_loop emits_addChoice) fun _ => ih
    | raises => simp [Emits, readLines, raised]

theorem gather_concat (d : CallDelta) : gather (ds ++ [d]) = extend d (gather ds) := by
  unfold gather extend
  congr 1
  · rw [List.filterMap_append]
    cases hid : truthy d.id <;> simp [hid]
  · simp
  · simp

/-- What the variables say of the fragments. -/
structure Gathered (ds : List CallDelta) (calls : List (ℤ × Call)) : Prop where
  keyed : (calls.map Prod.fst).Nodup
  mem : ∀ i, i ∈ calls.map Prod.fst ↔ ∃ d ∈ ds, d.index = i
  calls : ∀ x ∈ calls, x.2 = gather (ds.filter fun d => d.index = x.1)

theorem Gathered.addDelta (h : Gathered ds acc.calls) {d : CallDelta} (hadd : (addDelta acc (some d)).2 = .ok acc') :
    Gathered (ds ++ [d]) acc'.calls := by
  obtain rfl := Except.ok.inj hadd
  have hfilter : ∀ i, (ds ++ [d]).filter (fun e => e.index = i) =
      ds.filter (fun e => e.index = i) ++ if d.index = i then [d] else [] := by
    intro i
    rw [List.filter_append]
    congr 1
    by_cases hi : d.index = i
    · simp [hi]
    · simp [hi]
  show Gathered (ds ++ [d]) (if _ then _ else _)
  split_ifs with hthere
  · have hkeys : (acc.calls.map fun x => if x.1 = d.index then (x.1, extend d x.2) else x).map Prod.fst =
        acc.calls.map Prod.fst := by
      rw [List.map_map]
      refine List.map_congr_left fun x _ => ?_
      simp only [Function.comp_apply]
      split_ifs <;> rfl
    refine ⟨by rw [hkeys]; exact h.keyed, fun i => ?_, fun x hx => ?_⟩
    · rw [hkeys, h.mem]
      constructor
      · rintro ⟨e, he, hi⟩
        exact ⟨e, List.mem_append_left _ he, hi⟩
      · rintro ⟨e, he, rfl⟩
        rcases List.mem_append.mp he with he | he
        · exact ⟨e, he, rfl⟩
        · rw [List.mem_singleton.mp he]
          exact (h.mem _).mp hthere
    · obtain ⟨y, hy, rfl⟩ := List.mem_map.mp hx
      have hcall := h.calls y hy
      split_ifs with hyd
      · rw [hfilter, if_pos hyd.symm, gather_concat, hcall]
      · rw [hfilter, if_neg fun hd => hyd hd.symm, List.append_nil, hcall]
  · have hnone : ds.filter (fun e => e.index = d.index) = [] := by
      rw [List.filter_eq_nil_iff]
      intro e he hi
      exact hthere ((h.mem _).mpr ⟨e, he, by simpa using hi⟩)
    refine ⟨?_, fun i => ?_, fun x hx => ?_⟩
    · rw [List.map_append, List.nodup_append]
      refine ⟨h.keyed, List.nodup_singleton _, fun i hi j hj => ?_⟩
      rintro rfl
      rw [List.map_singleton, List.mem_singleton] at hj
      rw [hj] at hi
      exact hthere hi
    · rw [List.map_append, List.mem_append, h.mem]
      constructor
      · rintro (⟨e, he, hi⟩ | hi)
        · exact ⟨e, List.mem_append_left _ he, hi⟩
        · rw [List.map_singleton, List.mem_singleton] at hi
          exact ⟨d, List.mem_append_right _ (List.mem_singleton_self d), hi.symm⟩
      · rintro ⟨e, he, rfl⟩
        rcases List.mem_append.mp he with he | he
        · exact Or.inl ⟨e, he, rfl⟩
        · rw [List.mem_singleton.mp he]
          exact Or.inr (List.mem_singleton_self _)
    · rcases List.mem_append.mp hx with hx | hx
      · have hne : d.index ≠ x.1 := by
          intro hd
          rw [hd] at hthere
          exact hthere (List.mem_map_of_mem hx)
        rw [hfilter, if_neg hne, List.append_nil]
        exact h.calls x hx
      · obtain rfl := List.mem_singleton.mp hx
        rw [hfilter, if_pos rfl, gather_concat, hnone]
        rfl

structure Reads (cs : List (Option Choice)) (acc : Acc) : Prop where
  text : acc.text = textOf cs
  finish : acc.finish = finishOf cs
  calls : Gathered (deltasOf cs) acc.calls

theorem reads_start : Reads [] {} := ⟨rfl, rfl, List.nodup_nil, by simp [deltasOf, counting], by simp⟩

theorem counting_concat (c : Option Choice) :
    counting (cs ++ [c]) = counting cs ++ (c.filter fun c => c.index = some 0).toList := by
  unfold counting
  rw [List.filterMap_append, List.filter_append]
  congr 1
  cases c with
  | none => rfl
  | some c =>
    by_cases hc : c.index = some 0
    · simp [hc, Option.filter]
    · simp [hc, Option.filter]

theorem textOf_concat {c : Choice} (hc : c.index = some 0) : textOf (cs ++ [some c]) = textOf cs ++ c.fragment.getD "" := by
  unfold textOf
  rw [counting_concat]
  cases hf : c.fragment <;> simp [Option.filter, hc, hf]

theorem finishOf_concat {c : Choice} (hc : c.index = some 0) :
    finishOf (cs ++ [some c]) = (truthy c.finishReason).or (finishOf cs) := by
  unfold finishOf
  rw [counting_concat]
  cases hf : truthy c.finishReason <;> simp [Option.filter, hc, hf]

theorem deltasOf_concat {c : Choice} (hc : c.index = some 0) :
    deltasOf (cs ++ [some c]) = deltasOf cs ++ c.toolCalls.filterMap id := by
  unfold deltasOf
  rw [counting_concat]
  simp [Option.filter, hc]

theorem Gathered.addDeltas {tool : List (Option CallDelta)} (h : Gathered ds acc.calls)
    (hadd : (loop Stream.addDelta acc tool).2 = .ok acc') :
    Gathered (ds ++ tool.filterMap id) acc'.calls ∧ acc'.text = acc.text ∧ acc'.finish = acc.finish := by
  have hall := loop_inv (I := fun pre (acc' : Acc) => Gathered (ds ++ pre.filterMap id) acc'.calls ∧ acc'.text = acc.text ∧
    acc'.finish = acc.finish) [] ?_ ⟨by simpa using h, rfl, rfl⟩ hadd
  · simpa using hall
  · rintro pre acc₁ d acc₂ ⟨hgathered, htext, hfinish⟩ hone
    cases d with
    | none => cases hone
    | some d =>
      have hnext := hgathered.addDelta hone
      obtain rfl := Except.ok.inj hone
      rw [List.filterMap_append, ← List.append_assoc]
      exact ⟨hnext, htext, hfinish⟩

theorem Reads.addChoice (h : Reads cs acc) {c : Option Choice} (hadd : (addChoice acc c).2 = .ok acc') :
    Reads (cs ++ [c]) acc' := by
  cases c with
  | none => cases hadd
  | some c =>
    simp only [Stream.addChoice] at hadd
    split_ifs at hadd with hc
    · obtain rfl := Except.ok.inj hadd
      have hcounting : counting (cs ++ [some c]) = counting cs := by
        rw [counting_concat]
        simp [Option.filter, hc]
      refine ⟨?_, ?_, ?_⟩
      · rw [textOf, hcounting]
        exact h.text
      · rw [finishOf, hcounting]
        exact h.finish
      · rw [deltasOf, hcounting]
        exact h.calls
    · have hc : c.index = some 0 := not_not.mp hc
      obtain ⟨acc₁, htext, hrest, -⟩ := andThen_eq_ok hadd
      obtain ⟨acc₂, hcalls, hlast, -⟩ := andThen_eq_ok hrest
      obtain rfl := Except.ok.inj hlast
      have hfragment : acc₁.text = acc.text ++ c.fragment.getD "" ∧ acc₁.calls = acc.calls ∧ acc₁.finish = acc.finish := by
        cases hf : c.fragment with
        | none =>
          rw [hf] at htext
          obtain rfl := Except.ok.inj htext
          simp
        | some s =>
          rw [hf] at htext
          obtain rfl := Except.ok.inj htext
          simp
      have hgathered : Gathered (deltasOf cs) acc₁.calls := by
        rw [hfragment.2.1]
        exact h.calls
      obtain ⟨hall, htext₂, hfinish₂⟩ := hgathered.addDeltas hcalls
      refine ⟨?_, ?_, ?_⟩
      · rw [textOf_concat hc, ← h.text, ← hfragment.1]
        exact htext₂
      · rw [finishOf_concat hc, ← h.finish, ← hfragment.2.2, ← hfinish₂]
      · rw [deltasOf_concat hc]
        exact hall

theorem Reads.addChunk (h : Reads cs acc) {chunk : Chunk} (hadd : (addChunk acc chunk).2 = .ok acc') :
    Reads (cs ++ chunk.choices) acc' :=
  loop_inv (I := Reads) cs (fun _ _ _ _ h hone => h.addChoice hone) (b := { acc with usage := chunk.usage.getD acc.usage })
    ⟨h.text, h.finish, h.calls⟩ hadd

/-- **What reading leaves**: the end mark was there, and the variables are those of the choices before it. -/
theorem Reads.readLines (h : Reads cs acc) {done : Bool} (hread : (readLines acc lines).2 = .ok (done, acc')) :
    (done = true ↔ Ended lines) ∧ Reads (cs ++ choicesOf lines) acc' := by
  induction lines generalizing cs acc with
  | nil =>
    obtain ⟨rfl, rfl⟩ := Prod.mk.inj (Except.ok.inj hread)
    refine ⟨by simp [Ended], ?_⟩
    rw [show choicesOf [] = [] from rfl, List.append_nil]
    exact h
  | cons l lines ih =>
    cases l with
    | other =>
      obtain ⟨hdone, hreads⟩ := ih h hread
      exact ⟨by simpa [Ended, Line.isDone] using hdone, by simpa [choicesOf, consumed, Line.isDone, Line.choices] using hreads⟩
    | done =>
      obtain ⟨rfl, rfl⟩ := Prod.mk.inj (Except.ok.inj hread)
      exact ⟨by simp [Ended, Line.isDone], by simpa [choicesOf, consumed, Line.isDone] using h⟩
    | data chunk =>
      obtain ⟨acc₁, hchunk, hrest, -⟩ := andThen_eq_ok hread
      obtain ⟨hdone, hreads⟩ := ih (h.addChunk hchunk) hrest
      exact ⟨by simpa [Ended, Line.isDone] using hdone,
        by simpa [choicesOf, consumed, Line.isDone, Line.choices] using hreads⟩
    | raises => cases hread

/-! ### The end -/

@[simp] theorem doneItems_append (a b : List Event) : doneItems (a ++ b) = doneItems a ++ doneItems b :=
  List.filterMap_append

theorem doneItems_ofText {events : List Event} (h : ∀ e ∈ events, OfText e) : doneItems events = [] := by
  unfold doneItems
  rw [List.filterMap_eq_nil_iff]
  intro e he
  have htext := h e he
  cases e <;> first | rfl | exact htext.elim

theorem doneItems_itemEvents (output : List (OutputItem × ℕ)) : doneItems (output.flatMap itemEvents) = output := by
  induction output with
  | nil => rfl
  | cons x output ih =>
    rw [List.flatMap_cons, doneItems_append, ih]
    obtain ⟨item, k⟩ := x
    cases item <;> rfl

theorem doneItems_finish {done : Bool} : doneItems (finishStream host mapping ids done acc).1 =
    if done = true ∧ (acc.finish = some "stop" ∨ acc.finish = some "tool_calls") then
      ((outputOf host mapping ids acc).getD []).zipIdx
    else [] := by
  have houtput : doneItems (complete host mapping ids acc).1 = ((outputOf host mapping ids acc).getD []).zipIdx := by
    unfold complete
    split
    · next hnone => rw [hnone]; rfl
    · next hnil => rw [hnil]; rfl
    · next output _ hsome =>
      rw [hsome]
      show doneItems (output.zipIdx.flatMap itemEvents ++ _) = output.zipIdx
      rw [doneItems_append, doneItems_itemEvents]
      split <;> exact List.append_nil _
  cases done with
  | false => rfl
  | true =>
    simp only [finishStream, not_true_eq_false, if_false, true_and]
    split
    · next hfinish => rw [if_neg (by rw [hfinish]; decide)]; rfl
    · next hfinish => rw [if_neg (by rw [hfinish]; decide)]; rfl
    · next hfinish =>
      rw [if_pos (Or.inl hfinish)]
      exact houtput
    · next hfinish =>
      rw [if_pos (Or.inr hfinish)]
      exact houtput
    · next hstop htool =>
      rw [if_neg fun hfinish => hfinish.elim hstop htool]
      rfl

theorem doneItems_stream : doneItems (stream host mapping ids lines).1 =
    match (readLines {} lines).2 with
    | .ok (done, acc) => doneItems (finishStream host mapping ids done acc).1
    | .error _ => [] := by
  have hread : doneItems (readLines {} lines).1 = [] := doneItems_ofText emits_readLines
  unfold stream Out.andThen
  simp only [emit]
  cases hok : (readLines {} lines).2 with
  | error e =>
    simp only [doneItems_append, hread]
    rfl
  | ok x =>
    simp only [doneItems_append, hread]
    rfl

theorem mem_indices {i : ℤ} : i ∈ indices lines ↔ fragmentsAt i lines ≠ [] := by
  unfold indices fragmentsAt
  rw [List.mem_mergeSort, List.mem_dedup, List.mem_map]
  constructor
  · rintro ⟨d, hd, hi⟩ hnil
    rw [List.filter_eq_nil_iff] at hnil
    exact hnil d hd (by simpa using hi)
  · intro hne
    obtain ⟨d, hd⟩ := List.exists_mem_of_ne_nil _ hne
    obtain ⟨hmem, hi⟩ := List.mem_filter.mp hd
    exact ⟨d, hmem, of_decide_eq_true hi⟩

theorem pairwise_mergeSort_by {α : Type} (f : α → ℤ) (l : List α) :
    (l.mergeSort fun x y => f x ≤ f y).Pairwise fun x y => f x ≤ f y := by
  have htrans : ∀ x y z : α, decide (f x ≤ f y) = true → decide (f y ≤ f z) = true → decide (f x ≤ f z) = true := by
    intro x y z hxy hyz
    simp only [decide_eq_true_eq] at *
    omega
  have htotal : ∀ x y : α, (decide (f x ≤ f y) || decide (f y ≤ f x)) = true := by
    intro x y
    simp only [Bool.or_eq_true, decide_eq_true_eq]
    omega
  exact (List.pairwise_mergeSort htrans htotal l).imp fun hab => of_decide_eq_true hab

theorem sorted_indices : (indices lines).Pairwise (· ≤ ·) :=
  pairwise_mergeSort_by (fun i => i) ((deltasOf (choicesOf lines)).map CallDelta.index).dedup

theorem nodup_indices : (indices lines).Nodup := (List.mergeSort_perm _ _).nodup_iff.mpr (List.nodup_dedup _)

theorem indices_congr {lines' : List Line} (h : ∀ i, fragmentsAt i lines = fragmentsAt i lines') :
    indices lines = indices lines' := by
  have hmem : ∀ i, i ∈ indices lines ↔ i ∈ indices lines' := fun i => by rw [mem_indices, mem_indices, h]
  exact ((List.perm_ext_iff_of_nodup nodup_indices nodup_indices).mpr hmem).eq_of_pairwise
    (fun _ _ _ _ hab hba => le_antisymm hab hba) sorted_indices sorted_indices

/-- **The calls in their order**: one for each index, made of the fragments of this index. -/
theorem Reads.sortCalls (h : Reads (choicesOf lines) acc) :
    sortCalls acc.calls = (indices lines).map fun i => (i, gather (fragmentsAt i lines)) := by
  have hsorted : (Stream.sortCalls acc.calls).Pairwise fun x y => x.1 ≤ y.1 := pairwise_mergeSort_by Prod.fst acc.calls
  have hperm : (Stream.sortCalls acc.calls).Perm acc.calls := List.mergeSort_perm _ _
  have hkeys : (Stream.sortCalls acc.calls).map Prod.fst = indices lines := by
    refine ((List.perm_ext_iff_of_nodup ((hperm.map _).nodup_iff.mpr h.calls.keyed) nodup_indices).mpr fun i => ?_).eq_of_pairwise
      (fun _ _ _ _ hab hba => le_antisymm hab hba) (List.pairwise_map.mpr hsorted) sorted_indices
    rw [(hperm.map _).mem_iff, h.calls.mem, indices, List.mem_mergeSort, List.mem_dedup, List.mem_map]
  rw [← hkeys, List.map_map]
  conv_lhs => rw [← List.map_id (Stream.sortCalls acc.calls)]
  refine List.map_congr_left fun x hx => ?_
  exact Prod.ext rfl (h.calls.calls x (hperm.mem_iff.mp hx))

theorem calls_of_itemOf {x : ℤ × Call} {item : ToolItem} (h : itemOf host mapping ids x = some item) :
    x.2.id ≠ "" ∧ (∃ spec, (mapping.find? fun y => y.1 = x.2.name) = some spec) ∧
      (∃ fields, host.loads x.2.arguments = some (.object fields)) ∧ Calls host mapping x.2 item := by
  unfold itemOf at h
  split_ifs at h with hid
  unfold responseTool at h
  split at h
  · cases h
  · next name spec hfind =>
    have hname : name = x.2.name := by simpa using List.find?_some hfind
    subst hname
    split at h
    · next fields hloads =>
      refine ⟨hid, ⟨_, hfind⟩, ⟨_, hloads⟩, ?_⟩
      split at h
      · next hkind =>
        obtain rfl := Option.some.inj h
        exact ⟨rfl, ⟨spec, hfind, rfl, hkind.symm, rfl⟩, fun _ => rfl, fun hc => nomatch hc⟩
      · next hkind =>
        split at h
        · obtain rfl := Option.some.inj h
          exact ⟨rfl, ⟨spec, hfind, rfl, hkind.symm, rfl⟩, fun hc => (nomatch hc), fun _ => hloads⟩
        · cases h
    · cases h

/-- **What is done**, if anything is. -/
theorem done_spec (h : doneItems (stream host mapping ids lines).1 ≠ []) : ∃ items,
    Ended lines ∧ (finishOf (choicesOf lines) = some "stop" ∨ finishOf (choicesOf lines) = some "tool_calls") ∧
    doneItems (stream host mapping ids lines).1 =
      ((if textOf (choicesOf lines) = "" then [] else [.message ids.message (textOf (choicesOf lines))]) ++
        items.map OutputItem.tool).zipIdx ∧
    List.Forall₂ (fun i item => itemOf host mapping ids (i, gather (fragmentsAt i lines)) = some item) (indices lines) items := by
  rw [doneItems_stream] at h ⊢
  cases hread : (readLines {} lines).2 with
  | error e =>
    rw [hread] at h
    exact absurd rfl h
  | ok x =>
    obtain ⟨done, acc⟩ := x
    rw [hread] at h
    obtain ⟨hended, hreads⟩ := reads_start.readLines hread
    rw [List.nil_append] at hreads
    simp only [doneItems_finish] at h ⊢
    by_cases hdone : done = true ∧ (acc.finish = some "stop" ∨ acc.finish = some "tool_calls")
    · rw [if_pos hdone] at h ⊢
      cases hout : outputOf host mapping ids acc with
      | none =>
        rw [hout] at h
        exact absurd rfl h
      | some output =>
        obtain ⟨items, hitems, rfl⟩ := Option.map_eq_some_iff.mp hout
        rw [hreads.sortCalls] at hitems
        rw [← hreads.finish, ← hreads.text]
        exact ⟨items, hended.mp hdone.1, hdone.2, rfl, List.forall₂_map_left_iff.mp (mapM_eq_some_iff.mp hitems)⟩
    · rw [if_neg hdone] at h
      exact absurd rfl h

theorem readable_cons {l : Line} (hl : l.isDone = false) (h : Readable (l :: lines)) : l.isRaise = false ∧
    (∀ c ∈ l.choices, ∃ x, c = some x ∧ (x.index = some 0 → none ∉ x.toolCalls)) ∧ Readable lines := by
  have hconsumed : consumed (l :: lines) = l :: consumed lines := by simp [consumed, hl]
  unfold Readable at h
  rw [hconsumed, List.forall_mem_cons] at h
  exact ⟨h.1.1, h.1.2, h.2⟩

theorem loop_ok {α β : Type} {f : β → α → Out β} {as : List α} (h : ∀ a ∈ as, ∀ b, ∃ b', (f b a).2 = .ok b') (b : β) :
    ∃ b', (loop f b as).2 = .ok b' := by
  induction as generalizing b with
  | nil => exact ⟨b, rfl⟩
  | cons a as ih =>
    obtain ⟨b₁, hone⟩ := h a List.mem_cons_self b
    obtain ⟨b', hrest⟩ := ih (fun a ha => h a (List.mem_cons_of_mem _ ha)) b₁
    refine ⟨b', ?_⟩
    unfold loop Out.andThen
    rw [hone]
    exact hrest

theorem andThen_ok {α β : Type} {x : Out α} {f : α → Out β} {a : α} (h : x.2 = .ok a) : (x.andThen f).2 = (f a).2 := by
  unfold Out.andThen
  rw [h]

theorem addChoice_ok {c : Choice} (h : c.index = some 0 → none ∉ c.toolCalls) (acc : Acc) :
    ∃ acc', (addChoice acc (some c)).2 = .ok acc' := by
  simp only [addChoice]
  split_ifs with hc
  · exact ⟨acc, rfl⟩
  · obtain ⟨acc₁, hfragment⟩ : ∃ acc₁, (addFragment acc c.fragment).2 = .ok acc₁ := by
      cases c.fragment with
      | none => exact ⟨_, rfl⟩
      | some s => exact ⟨_, rfl⟩
    obtain ⟨acc₂, hcalls⟩ : ∃ acc₂, (loop addDelta acc₁ c.toolCalls).2 = .ok acc₂ := by
      refine loop_ok (fun d hd acc => ?_) acc₁
      cases d with
      | none => exact absurd hd (h (not_not.mp hc))
      | some d => exact ⟨_, rfl⟩
    rw [andThen_ok hfragment, andThen_ok hcalls]
    exact ⟨_, rfl⟩

theorem readLines_ok (h : Readable lines) (acc : Acc) : ∃ x, (readLines acc lines).2 = .ok x := by
  induction lines generalizing acc with
  | nil => exact ⟨_, rfl⟩
  | cons l lines ih =>
    cases l with
    | other => exact ih (readable_cons rfl h).2.2 acc
    | done => exact ⟨_, rfl⟩
    | data chunk =>
      obtain ⟨-, hchoices, hrest⟩ := readable_cons rfl h
      obtain ⟨acc₁, hchunk⟩ : ∃ acc₁, (addChunk acc chunk).2 = .ok acc₁ := by
        refine loop_ok (fun c hc acc => ?_) _
        obtain ⟨x, rfl, hx⟩ := hchoices c hc
        exact addChoice_ok hx acc
      obtain ⟨x, hx⟩ := ih hrest acc₁
      refine ⟨x, ?_⟩
      simp only [readLines]
      rw [andThen_ok hchunk]
      exact hx
    | raises => exact absurd (readable_cons rfl h).1 (by decide)

theorem doneItems_congr {lines' : List Line} (h : Readable lines) (h' : Readable lines') (hended : Ended lines ↔ Ended lines')
    (htext : textOf (choicesOf lines) = textOf (choicesOf lines'))
    (hfinish : finishOf (choicesOf lines) = finishOf (choicesOf lines'))
    (hfragments : ∀ i, fragmentsAt i lines = fragmentsAt i lines') :
    doneItems (stream host mapping ids lines).1 = doneItems (stream host mapping ids lines').1 := by
  obtain ⟨⟨done, acc⟩, hread⟩ := readLines_ok h {}
  obtain ⟨⟨done', acc'⟩, hread'⟩ := readLines_ok h' {}
  obtain ⟨hdone, hreads⟩ := reads_start.readLines hread
  obtain ⟨hdone', hreads'⟩ := reads_start.readLines hread'
  rw [List.nil_append] at hreads hreads'
  have hsame : done = done' := by
    rw [Bool.eq_iff_iff, hdone, hdone', hended]
  have hcalls : sortCalls acc.calls = sortCalls acc'.calls := by
    rw [hreads.sortCalls, hreads'.sortCalls, indices_congr hfragments]
    simp only [hfragments]
  have hacc : acc.text = acc'.text := by rw [hreads.text, hreads'.text, htext]
  have hout : outputOf host mapping ids acc = outputOf host mapping ids acc' := by
    unfold outputOf
    rw [hcalls, hacc]
  rw [doneItems_stream, doneItems_stream, hread, hread']
  simp only [doneItems_finish]
  rw [hsame, hout, hreads.finish, hreads'.finish, hfinish]

end Proofs

def fragments (ds : List CallDelta) : Line := .data { choices := [some { toolCalls := ds.map some }] }

/-- Two calls whose fragments alternate. -/
def alternating : List Line :=
  [fragments [{ index := 1, id := some "c2", name := some "shell" }, { index := 0, id := some "c1", name := some "sh" }],
    fragments [{ index := 1, arguments := some "\x7b" }, { index := 0, name := some "ell", arguments := some "\x7b\x7d" }],
    fragments [{ index := 1, arguments := some "\x7d" }], .data { choices := [some { finishReason := some "tool_calls" }] }, .done]

example : gather (fragmentsAt 0 alternating) = ⟨"c1", "shell", "\x7b\x7d"⟩ ∧
    gather (fragmentsAt 1 alternating) = ⟨"c2", "shell", "\x7b\x7d"⟩ := by decide

end Smara.Native.Stream
