import Mathlib
import Smara.Native.Stream

/-! # The end of a request

`do_POST` writes the events of a response inside of two contexts, which close the connection to the provider and release the
lease of the request. What is raised after the headers were sent is answered outside of them.

* `post`: what is written after the headers.
* `Exact`: nothing follows a terminal event.
* `post_exact_iff`: when that is so. -/

namespace Smara.Native.Post

open Native.Wire Native.Stream

/-- What is on the wire. -/
inductive Write
  | head (status : ℕ)
  | body
  | event (e : Event)
  /-- Some bytes of a write that raised. -/
  | part
  deriving DecidableEq

inductive Left
  | nothing
  | part
  | whole
  deriving DecidableEq

/-- A write that raises, with what it has sent. -/
structure Fault where
  raised : Raised
  left : Left

def Fault.sent (w : Write) (f : Fault) : List Write :=
  match f.left with
  | .nothing => []
  | .part => [.part]
  | .whole => [w]

/-- The writes in their order, up to one that raises. -/
def send : List Write → List (Option Fault) → List Write × Option Raised
  | [], _ => ([], none)
  | w :: _, some f :: _ => (f.sent w, some f.raised)
  | w :: ws, none :: faults => (w :: (send ws faults).1, (send ws faults).2)
  | w :: ws, [] => (w :: ws, none)

/-- What happens to a request once the headers are sent. -/
structure Course where
  lines : List Line
  /-- The writes of the stream that raise. -/
  faults : List (Option Fault) := []
  /-- What the exit of the connection raises, and the release of the lease. -/
  close : Option Raised := none
  release : Option Raised := none
  /-- The writes of the answer to an exception that raise. -/
  late : List (Option Fault) := []

section Post
variable (host : Host) (mapping : List (String × ToolSpec)) (ids : Ids)

def answer : Option Raised → List Write
  | none => []
  | some .budget => [.head 400, .body]
  | some .admission => [.head 429, .body]
  | some .pipe => []
  | some .other => [.event .failed]

def streamed (c : Course) : List Write × Option Raised :=
  match send ((stream host mapping ids c.lines).1.map .event) c.faults with
  | (ws, some e) => (ws, some e)
  | (ws, none) =>
    match (stream host mapping ids c.lines).2 with
    | .ok _ => (ws, none)
    | .error e => (ws, some e)

def leaving (c : Course) : Option Raised := c.release.or (c.close.or (streamed host mapping ids c).2)

/-- `do_POST`, from the headers. -/
def post (c : Course) : List Write :=
  [.head 200] ++ (streamed host mapping ids c).1 ++ (send (answer (leaving host mapping ids c)) c.late).1

/-! ### What is to hold -/

def Terminal : Write → Prop
  | .event (.completed _ _) => True
  | .event (.incomplete _) => True
  | .event .failed => True
  | _ => False

def Exact (ws : List Write) : Prop := ∀ before w after, ws = before ++ w :: after → Terminal w → after = []

/-- The whole stream is sent: what it writes last may raise when it is sent. -/
def Sent (c : Course) : Prop :=
  (stream host mapping ids c.lines).2 = .ok () ∧ ∃ before last, (stream host mapping ids c.lines).1 = before ++ [last] ∧
    (∀ f ∈ c.faults.take before.length, f = none) ∧ ∀ f, c.faults[before.length]? = some (some f) → f.left = .whole

def Answered (raised : Option Raised) (late : List (Option Fault)) : Prop := (send (answer raised) late).1 ≠ []

section Proofs
variable {host : Host} {mapping : List (String × ToolSpec)} {ids : Ids} {c : Course} {ws : List Write} {faults : List (Option Fault)}

/-! ### The stream -/

theorem not_terminal_of_ofText {events : List Event} (h : ∀ e ∈ events, OfText e) : ∀ e ∈ events, ¬ Terminal (.event e) := by
  intro e he hterminal
  have htext := h e he
  cases e <;> first | exact hterminal.elim | exact htext.elim

theorem not_terminal_itemEvents (output : List (OutputItem × ℕ)) : ∀ e ∈ output.flatMap itemEvents, ¬ Terminal (.event e) := by
  intro e he
  obtain ⟨⟨item, k⟩, -, he⟩ := List.mem_flatMap.mp he
  cases item with
  | message _ text =>
    rw [List.mem_singleton.mp he]
    exact id
  | tool item =>
    simp only [itemEvents, List.mem_cons, List.not_mem_nil, or_false] at he
    rcases he with rfl | rfl | rfl
    · exact id
    · exact id
    · exact id

/-- The events end with a terminal one if nothing was raised, and none of the others is terminal. -/
def Ends (x : Out Unit) : Prop :=
  (x.2 = .ok () ∧ ∃ before last, x.1 = before ++ [last] ∧ Terminal (.event last) ∧ ∀ e ∈ before, ¬ Terminal (.event e)) ∨
    ((∃ e, x.2 = .error e) ∧ ∀ e ∈ x.1, ¬ Terminal (.event e))

theorem ends_raised (e : Raised) : Ends (raised e) := Or.inr ⟨⟨e, rfl⟩, by simp [raised]⟩

theorem ends_emit {last : Event} (h : Terminal (.event last)) : Ends (emit [last] ()) :=
  Or.inl ⟨rfl, [], last, rfl, h, by simp⟩

theorem ends_andThen {α : Type} {x : Out α} {f : α → Out Unit} (hx : ∀ e ∈ x.1, ¬ Terminal (.event e)) (hf : ∀ a, Ends (f a)) :
    Ends (x.andThen f) := by
  unfold Out.andThen
  cases hok : x.2 with
  | error e => exact Or.inr ⟨⟨e, rfl⟩, hx⟩
  | ok a =>
    rcases hf a with ⟨hend, before, last, hevents, hlast, hbefore⟩ | ⟨⟨e, he⟩, hevents⟩
    · refine Or.inl ⟨hend, x.1 ++ before, last, by simp [hevents], hlast, fun e he => ?_⟩
      rcases List.mem_append.mp he with he | he
      · exact hx e he
      · exact hbefore e he
    · refine Or.inr ⟨⟨e, he⟩, fun e' he' => ?_⟩
      rcases List.mem_append.mp he' with he' | he'
      · exact hx e' he'
      · exact hevents e' he'

theorem ends_complete {acc : Acc} : Ends (complete host mapping ids acc) := by
  unfold complete
  split
  · exact ends_raised _
  · exact ends_raised _
  · refine ends_andThen (not_terminal_itemEvents _) fun _ => ?_
    split
    · exact ends_emit trivial
    · exact ends_emit trivial
    · exact ends_raised _

theorem ends_stream (host : Host) (mapping : List (String × ToolSpec)) (ids : Ids) (lines : List Line) :
    Ends (stream host mapping ids lines) := by
  refine ends_andThen (by simp [emit, Terminal]) fun _ => ends_andThen (not_terminal_of_ofText emits_readLines) fun x => ?_
  obtain ⟨done, acc⟩ := x
  cases done with
  | false => exact ends_raised _
  | true =>
    simp only [finishStream, not_true_eq_false, if_false]
    split
    · exact ends_emit trivial
    · exact ends_emit trivial
    · exact ends_complete
    · exact ends_complete
    · exact ends_raised _

/-! ### The writes -/

theorem mem_send {w : Write} (h : w ∈ (send ws faults).1) : w ∈ ws ∨ w = .part := by
  induction ws generalizing faults with
  | nil => simp [send] at h
  | cons x ws ih =>
    match faults with
    | [] => exact Or.inl h
    | some f :: faults =>
      have hsent : w ∈ f.sent x := h
      unfold Fault.sent at hsent
      split at hsent
      · simp at hsent
      · exact Or.inr (List.mem_singleton.mp hsent)
      · rw [List.mem_singleton.mp hsent]
        exact Or.inl List.mem_cons_self
    | none :: faults =>
      rcases List.mem_cons.mp h with rfl | h
      · exact Or.inl List.mem_cons_self
      · exact (ih h).imp_left (List.mem_cons_of_mem _)

/-- **The last write** is sent whole, or all that is sent comes before it. -/
theorem send_concat (ws : List Write) (last : Write) (faults : List (Option Fault)) :
    ((∀ f ∈ faults.take ws.length, f = none) ∧ (∀ f, faults[ws.length]? = some (some f) → f.left = .whole) ∧
        (send (ws ++ [last]) faults).1 = ws ++ [last]) ∨
      (¬ ((∀ f ∈ faults.take ws.length, f = none) ∧ ∀ f, faults[ws.length]? = some (some f) → f.left = .whole) ∧
        ∀ w ∈ (send (ws ++ [last]) faults).1, w ∈ ws ∨ w = .part) := by
  induction ws generalizing faults with
  | nil =>
    match faults with
    | [] => exact Or.inl ⟨by simp, by simp, rfl⟩
    | none :: faults => exact Or.inl ⟨by simp, by simp, by cases faults <;> rfl⟩
    | some f :: faults =>
      cases hleft : f.left with
      | whole => exact Or.inl ⟨by simp, by simpa using hleft, by simp [send, Fault.sent, hleft]⟩
      | nothing => exact Or.inr ⟨by simp [hleft], by simp [send, Fault.sent, hleft]⟩
      | part => exact Or.inr ⟨by simp [hleft], by simp [send, Fault.sent, hleft]⟩
  | cons w ws ih =>
    match faults with
    | [] => exact Or.inl ⟨by simp, by simp, rfl⟩
    | none :: faults =>
      rcases ih faults with ⟨hnone, hwhole, hsent⟩ | ⟨hnot, hsent⟩
      · exact Or.inl ⟨by simpa using hnone, by simpa using hwhole, by simp [send, hsent]⟩
      · refine Or.inr ⟨by simpa using hnot, fun x hx => ?_⟩
        rcases List.mem_cons.mp hx with rfl | hx
        · exact Or.inl List.mem_cons_self
        · exact (hsent x hx).imp_left (List.mem_cons_of_mem _)
    | some f :: faults =>
      refine Or.inr ⟨fun h => ?_, fun x hx => ?_⟩
      · have hf := h.1 (some f) (by simp)
        cases hf
      · have hsent : x ∈ f.sent w := hx
        unfold Fault.sent at hsent
        split at hsent
        · simp at hsent
        · exact Or.inr (List.mem_singleton.mp hsent)
        · rw [List.mem_singleton.mp hsent]
          exact Or.inl List.mem_cons_self

theorem exact_of_before {before : List Write} {last : Write} (h : ∀ w ∈ before, ¬ Terminal w) : Exact (before ++ [last]) := by
  intro b w a heq hterminal
  by_contra hne
  obtain ⟨a', x, rfl⟩ := (List.eq_nil_or_concat a).resolve_left hne
  rw [List.concat_eq_append, ← List.cons_append, ← List.append_assoc] at heq
  have hb := (List.append_inj' heq rfl).1
  exact h w (by rw [hb]; simp) hterminal

theorem exact_of_none (h : ∀ w ∈ ws, ¬ Terminal w) : Exact ws := by
  intro b w a heq hterminal
  exact absurd hterminal (h w (by rw [heq]; simp))

theorem exact_answer {before : List Write} (h : ∀ w ∈ before, ¬ Terminal w) (raised : Option Raised) :
    Exact (before ++ (send (answer raised) faults).1) := by
  have hno : (∀ w ∈ answer raised, ¬ Terminal w) → Exact (before ++ (send (answer raised) faults).1) := by
    intro hanswer
    refine exact_of_none fun w hw => ?_
    rcases List.mem_append.mp hw with hw | hw
    · exact h w hw
    · rcases mem_send hw with hw | rfl
      · exact hanswer w hw
      · exact id
  match raised with
  | none => exact hno (by simp [answer])
  | some .budget => exact hno (by simp [answer, Terminal])
  | some .admission => exact hno (by simp [answer, Terminal])
  | some .pipe => exact hno (by simp [answer])
  | some .other =>
    rcases send_concat [] (.event .failed) faults with ⟨-, -, hsent⟩ | ⟨-, hsent⟩
    · rw [answer, ← List.nil_append [Write.event Event.failed], hsent]
      exact exact_of_before h
    · refine exact_of_none fun w hw => ?_
      rcases List.mem_append.mp hw with hw | hw
      · exact h w hw
      · rcases hsent w hw with hw | rfl
        · simp at hw
        · exact id

theorem streamed_fst : (streamed host mapping ids c).1 = (send ((stream host mapping ids c.lines).1.map .event) c.faults).1 := by
  unfold streamed
  split
  · next heq => rw [heq]
  · next heq =>
    rw [heq]
    split <;> rfl

theorem streamed_cases (host : Host) (mapping : List (String × ToolSpec)) (ids : Ids) (c : Course) : (Sent host mapping ids c ∧ ∃ before last, (streamed host mapping ids c).1 = before ++ [last] ∧
      Terminal last ∧ ∀ w ∈ before, ¬ Terminal w) ∨
    (¬ Sent host mapping ids c ∧ ∀ w ∈ (streamed host mapping ids c).1, ¬ Terminal w) := by
  rw [streamed_fst]
  rcases ends_stream host mapping ids c.lines with ⟨hok, before, last, hevents, hlast, hbefore⟩ | ⟨⟨e, he⟩, hevents⟩
  · have hnone : ∀ w ∈ before.map Write.event, ¬ Terminal w := by
      intro w hw
      obtain ⟨e, he, rfl⟩ := List.mem_map.mp hw
      exact hbefore e he
    rw [hevents, List.map_append, List.map_singleton]
    have hlength : (before.map Write.event).length = before.length := List.length_map _
    rcases send_concat (before.map Write.event) (.event last) c.faults with ⟨htake, hwhole, hsent⟩ | ⟨hnot, hsent⟩
    · rw [hlength] at htake hwhole
      exact Or.inl ⟨⟨hok, before, last, hevents, htake, hwhole⟩, _, _, hsent, hlast, hnone⟩
    · rw [hlength] at hnot
      refine Or.inr ⟨?_, fun w hw => ?_⟩
      · rintro ⟨-, before', last', hevents', htake, hwhole⟩
        obtain ⟨rfl, -⟩ := List.append_inj' (hevents.symm.trans hevents') rfl
        exact hnot ⟨htake, hwhole⟩
      · rcases hsent w hw with hw | rfl
        · exact hnone w hw
        · exact id
  · refine Or.inr ⟨fun hsent => ?_, fun w hw => ?_⟩
    · rw [hsent.1] at he
      cases he
    · rcases mem_send hw with hw | rfl
      · obtain ⟨e, he, rfl⟩ := List.mem_map.mp hw
        exact hevents e he
      · exact id

end Proofs

/-- **Exactly one terminal event**: nothing follows it, unless the stream was sent and something is answered to what is raised
after it. -/
theorem post_exact_iff (c : Course) : Exact (post host mapping ids c) ↔
    ¬ (Sent host mapping ids c ∧ Answered (leaving host mapping ids c) c.late) := by
  have hhead : ¬ Terminal (.head 200) := id
  unfold post
  rcases streamed_cases host mapping ids c with
    ⟨hsent, before, last, heq, hlast, hbefore⟩ | ⟨hnot, hnone⟩
  · rw [heq]
    have hall : ∀ w ∈ [Write.head 200] ++ before, ¬ Terminal w := by
      intro w hw
      rcases List.mem_append.mp hw with hw | hw
      · rw [List.mem_singleton.mp hw]
        exact hhead
      · exact hbefore w hw
    constructor
    · rintro hexact ⟨-, hanswered⟩
      exact hanswered (hexact ([.head 200] ++ before) last _ (by simp) hlast)
    · intro hquiet
      have hempty : (send (answer (leaving host mapping ids c)) c.late).1 = [] := by
        by_contra hne
        exact hquiet ⟨hsent, hne⟩
      rw [hempty, List.append_nil, ← List.append_assoc]
      exact exact_of_before hall
  · refine iff_of_true ?_ fun h => hnot h.1
    refine exact_answer (fun w hw => ?_) _
    rcases List.mem_append.mp hw with hw | hw
    · rw [List.mem_singleton.mp hw]
      exact hhead
    · exact hnone w hw

end Post

/-- A short answer, and a database that is locked when the lease is released. -/
def lockedRelease : Course where
  lines := [.data { choices := [some { content := some "Hi", finishReason := some "stop" }] }, .done]
  release := some .other

/-- The failure comes after the completion. -/
theorem failed_after_completed : ¬ ∀ (host : Host) (mapping : List (String × ToolSpec)) (ids : Ids) (c : Course),
    Exact (post host mapping ids c) := by
  intro h
  have hpost : post smallHost [] ⟨"msg", fun _ => "fc"⟩ lockedRelease =
      [.head 200, .event .created, .event .messageAdded, .event (.textDelta "Hi"), .event (.itemDone 0 (.message "msg" "Hi"))] ++
        .event (.completed [.message "msg" "Hi"] none) :: [.event .failed] := by decide_cbv
  have hempty := h smallHost [] ⟨"msg", fun _ => "fc"⟩ lockedRelease _ _ _ hpost trivial
  cases hempty

end Smara.Native.Post
