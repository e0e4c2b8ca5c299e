import Smara.Research.Session

/-! # Rules for the calls of a research

What the parts of the calls keep: those that only read and ask keep everything, and the others what their
statements keep.

* `keeping_save_of`: what `save` changes.
* `ends_onGraph`, `exec_onGraph`: a statement about the graph. -/

namespace Smara.Research.Rules

open Lib.Calls Lib.Scripts Lib.Table
open Research.Graph Research.Schema Research.Session

section Keeping
variable {α : Type} {admits : Research → (i : Ask) → Answer i → Prop} {sure : Research → Prop}
  {I : Research → Prop} {s : Research}

theorem keeping_settled (r : Except Err α) : Keeping admits sure I (settled r) := by
  cases r with
  | ok a => exact keeping_pure a
  | error e => exact keeping_raise e

theorem ends_settled {β : Type} {r : Except Err α} {next : α → Program β}
    {Q : Except Err β → Research → Prop} (h : ∀ a, r = .ok a → Ends admits sure Q (next a) s)
    (he : ∀ e, r = .error e → Q (.error e) s) : Ends admits sure Q (settled r >>= next) s := by
  cases r with
  | ok a => exact h a rfl
  | error e => exact ends_raise (he e rfl)

theorem keeping_engineSet {event : String} {f : Research → Research}
    (h : ∀ s, I s → I (f s)) : Keeping admits sure I (engineSet event f) :=
  keeping_bind (keeping_request _) fun written =>
    keeping_bind (keeping_settled written) fun _ => keeping_put h

theorem keeping_engineEvent (event : String) : Keeping admits sure I (engineEvent event) :=
  keeping_bind (keeping_request _) fun written => keeping_settled written

theorem keeping_noteRest {event stateId : String}
    (hvalidated : event = "research_validated" → ∀ s, I s → I { s with validatedId := some stateId })
    (hplanned : event = "research_planned" → ∀ s, I s → I { s with validatedId := none }) :
    Keeping admits sure I (noteRest event stateId) := by
  have hnote : Keeping admits sure I (noteValidated event stateId) := by
    unfold noteValidated
    split_ifs with hvalidation hplan
    · exact keeping_engineSet fun s => hvalidated hvalidation s
    · exact keeping_engineSet fun s => hplanned hplan s
    · exact keeping_pure ()
  exact keeping_bind (keeping_engineSet fun _ h => h) fun _ =>
    keeping_bind (keeping_engineSet fun _ h => h) fun _ => keeping_bind hnote fun _ =>
    keeping_engineEvent event

theorem keeping_save_of (event : String)
    (hput : ∀ s s', I s → I s' → I { s' with artifacts := s'.artifacts ++ [s.snapshot] })
    (hstate : ∀ s stateId, I s → I { s with stateId := stateId })
    (hvalidated : event = "research_validated" →
      ∀ s stateId, I s → I { s with validatedId := some stateId })
    (hplanned : event = "research_planned" → ∀ s, I s → I { s with validatedId := none }) :
    Keeping admits sure I (save event) :=
  keeping_read fun s hs => keeping_bind (keeping_request _) fun stored =>
    keeping_bind (keeping_settled stored) fun stateId => keeping_bind (keeping_put fun s' => hput s s' hs)
    fun _ => keeping_bind (keeping_engineSet fun s => hstate s _) fun _ =>
    keeping_bind (keeping_noteRest (fun hevent s => hvalidated hevent s _) hplanned) fun _ =>
    keeping_pure stateId

theorem keeping_requireState {p : Prop} [Decidable p] {message : String} :
    Keeping admits sure I (requireState p message) := keeping_require

theorem keeping_knownNode (nodeId : String) : Keeping admits sure I (knownNode nodeId) := by
  refine keeping_bind (keeping_get _) fun found => ?_
  cases found with
  | none => exact keeping_raise _
  | some n => exact keeping_pure n

theorem keeping_readyNode (nodeId : String) : Keeping admits sure I (readyNode nodeId) :=
  keeping_bind (keeping_knownNode nodeId) fun _ => keeping_bind (keeping_get _) fun _ =>
    keeping_requireState

theorem keeping_invalidEvidence (evidenceIds : List String) :
    Keeping admits sure I (invalidEvidence evidenceIds) := by
  induction evidenceIds with
  | nil => exact keeping_pure []
  | cons evidenceId evidenceIds ih =>
    exact keeping_bind (keeping_request _) fun checked => keeping_bind (keeping_settled checked) fun _ =>
      keeping_bind ih fun _ => keeping_pure _

theorem keeping_judgeAll {claim : String} (ids : List String) :
    Keeping admits sure I (judgeAll claim ids) := by
  induction ids with
  | nil => exact keeping_pure []
  | cons evidenceId ids ih =>
    refine keeping_bind (keeping_get _) fun known => keeping_ite (fun _ => ?_) fun _ => ?_
    · exact keeping_bind (keeping_request _) fun checked => keeping_bind (keeping_settled checked) fun _ =>
        keeping_bind (keeping_request _) fun answered => keeping_bind (keeping_settled answered) fun _ =>
        keeping_bind ih fun _ => keeping_pure _
    · exact keeping_bind ih fun _ => keeping_pure _

theorem keeping_firstSupport {claim : String} (ids : List String) :
    Keeping admits sure I (firstSupport claim ids) := by
  induction ids with
  | nil => exact keeping_pure none
  | cons evidenceId ids ih =>
    exact keeping_bind (keeping_request _) fun answered => keeping_bind (keeping_settled answered) fun _ =>
      keeping_ite (fun _ => keeping_pure _) fun _ => ih

theorem keeping_repair {fetched : List String} (claims : List (Claim × Check)) :
    Keeping admits sure I (repair fetched claims) := by
  induction claims with
  | nil => exact keeping_pure _
  | cons c claims ih =>
    refine keeping_ite (fun _ => keeping_bind ih fun _ => keeping_pure _) fun _ =>
      keeping_bind (keeping_firstSupport fetched) fun found => keeping_bind ih fun _ => ?_
    cases found with
    | none => exact keeping_pure _
    | some evidenceId => exact keeping_pure _

theorem keeping_scored {checks : List Claim} : Keeping admits sure I (scored checks) := by
  refine keeping_bind (keeping_request _) fun answered => keeping_bind (keeping_settled answered) fun _ =>
    keeping_ite (fun _ => keeping_bind (keeping_get _) fun _ => keeping_bind (keeping_repair _) fun _ =>
      keeping_ite (fun _ => keeping_pure _) fun _ => ?_) fun _ => keeping_pure _
  exact keeping_bind (keeping_request _) fun again => keeping_bind (keeping_settled again) fun _ =>
    keeping_pure _

theorem ends_onGraph {f : ResearchGraph → Except Err ResearchGraph} {rest : Unit → Program α}
    {Q : Except Err α → Research → Prop}
    (h : ∀ g, f s.graph = .ok g → Ends admits sure Q (rest ()) { s with graph := g })
    (he : ∀ e, f s.graph = .error e → ¬ sure s → Q (.error e) s) :
    Ends admits sure Q (onGraph f >>= rest) s := by
  refine ends_attempt (fun s' hf => ?_) fun e hf hsure => ?_
  · cases hg : f s.graph with
    | error e =>
      rw [hg] at hf
      cases hf
    | ok g =>
      rw [hg] at hf
      rw [← Except.ok.inj hf]
      exact h g hg
  · cases hg : f s.graph with
    | error e' =>
      rw [hg] at hf
      rw [← Except.error.inj hf]
      exact he e' hg hsure
    | ok g =>
      rw [hg] at hf
      cases hf

theorem keeping_discard {p : Program α} (hp : Keeping admits sure I p) :
    Keeping admits sure I (do let _ ← p) := keeping_bind hp fun _ => keeping_pure ()

end Keeping

section Exec
variable {α : Type} {answers : Answers Answer} {s : Research} {n : ℕ}

theorem exec_get {f : Research → α} :
    exec answers n (get f : Program α) s = (.ok (f s), s, n) := rfl

theorem exec_knownNode {nodeId : String} : exec answers n (knownNode nodeId) s = match s.graph.node nodeId with
    | none => (.error (.researchStateError "unknown research node"), s, n)
    | some node => (.ok node, s, n) := by
  unfold knownNode
  rw [exec_bind, exec_get]
  simp only
  cases s.graph.node nodeId <;> rfl

theorem exec_onGraph {f : ResearchGraph → Except Err ResearchGraph} {g : ResearchGraph} (hg : f s.graph = .ok g) :
    exec answers n (onGraph f) s = (.ok (), { s with graph := g }, n) := by
  unfold onGraph attempt
  rw [exec, hg]
  rfl

theorem exec_discard {p : Program α} :
    (exec answers n (do let _ ← p) s).2.1 = (exec answers n p s).2.1 := by
  rw [exec_bind]
  generalize exec answers n p s = r
  obtain ⟨r, s', m⟩ := r
  cases r <;> rfl

end Exec

end Smara.Research.Rules
