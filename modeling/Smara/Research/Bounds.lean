import Mathlib.Order.MinMax
import Smara.Lib.Machine
import Smara.Research.Rules

/-! # A research stays within its lane

The lane allows a graph a number of nodes. `plan` sets the limit of the graph to it, and a graph that is
read back has a limit of its own.

* `Lawful`: the nodes of the graph, and of every snapshot, were added after their dependencies.
* `InLane`: a resolution that expands a contradiction has room for it in the lane, or the graph has the
  limit of the lane.
* `expansion_bounded`: dependencies exist and have no cycle, and the graph stays within the lane exactly
  if every call is `InLane`. -/

namespace Smara.Research.Bounds

open Goals.Spec (strip)
open Lib.Calls Lib.Machine Lib.Scripts Lib.Table
open Research.Graph Research.Schema Research.Session Research.Rules

/-! ### Plans -/

/-- What `plan` keeps of its candidate, which has `base` nodes at first. -/
def Planning (limit base : ℕ) (g : ResearchGraph) : Prop :=
  Grown g.nodes ∧ g.maxNodes = limit ∧ g.nodes.length ≤ max limit base

variable {limit base : ℕ} {g g' : ResearchGraph}

theorem planning_add (h : Planning limit base g) {n : ResearchNode} (hadd : g.add n = .ok g') :
    Planning limit base g' := by
  have hgrown := grown_add h.1 hadd
  obtain ⟨rfl, hroom, -, -⟩ := add_eq_ok hadd
  obtain ⟨-, rfl, -⟩ := h
  refine ⟨hgrown, rfl, ?_⟩
  rw [List.length_append, List.length_singleton]
  exact le_max_of_le_left hroom

theorem planning_addItem {r r' : ResearchGraph × List String} (h : Planning limit base r.1) {item : Item}
    (hadd : addItem r item = .ok r') : Planning limit base r'.1 := by
  unfold addItem at hadd
  split_ifs at hadd with hblank hknown
  · rw [← Except.ok.inj hadd]
    exact h
  · cases hnode : r.1.add item.node with
    | error e =>
      rw [hnode] at hadd
      cases hadd
    | ok g =>
      rw [hnode] at hadd
      rw [← Except.ok.inj hadd]
      exact planning_add h hnode

theorem planning_foldlM {items : List Item} {r r' : ResearchGraph × List String} (h : Planning limit base r.1)
    (hadd : items.foldlM addItem r = .ok r') : Planning limit base r'.1 := by
  induction items generalizing r with
  | nil =>
    rw [List.foldlM_nil] at hadd
    rw [← Except.ok.inj hadd]
    exact h
  | cons item items ih =>
    rw [List.foldlM_cons] at hadd
    cases hitem : addItem r item with
    | error e =>
      rw [hitem] at hadd
      cases hadd
    | ok r'' =>
      rw [hitem] at hadd
      exact ih (planning_addItem h hitem) hadd

theorem planning_addItems {pending : List Item} {r r' : ResearchGraph × List String}
    (h : Planning limit base r.1) (hadd : addItems pending r = .ok r') : Planning limit base r'.1 := by
  induction pending, r using addItems.induct with
  | case1 r =>
    rw [addItems, if_pos rfl] at hadd
    rw [← Except.ok.inj hadd]
    exact h
  | case2 pending r hne hready e hround =>
    rw [addItems, if_neg hne, dif_pos hready, hround] at hadd
    cases hadd
  | case3 pending r hne hready r'' hround ih =>
    rw [addItems, if_neg hne, dif_pos hready, hround] at hadd
    exact ih (planning_foldlM h hround) hadd
  | case4 pending r hne hready =>
    rw [addItems, if_neg hne, dif_neg hready] at hadd
    cases hadd

/-- **The graph of a plan** has the limit of the lane, and adds no node beyond it. -/
theorem planning_candidate (h : Grown g.nodes) {replacePlan : Bool} {pending : List Item}
    {r : ResearchGraph × List String} (hplan : candidate limit replacePlan pending g = .ok r) :
    Planning limit g.nodes.length r.1 := by
  unfold candidate at hplan
  split_ifs at hplan with hdistinct hreplace
  · simp only at hplan
    split_ifs at hplan with hmax
    exact planning_addItems (r := ({ ({} : ResearchGraph) with maxNodes := limit }, []))
      ⟨Grown.nil, rfl, Nat.zero_le _⟩ hplan
  · rw [fromDict_toDict h] at hplan
    simp only at hplan
    split_ifs at hplan with hmax
    exact planning_addItems (r := ({ g with maxNodes := limit }, [])) ⟨h, rfl, le_max_right _ _⟩ hplan

/-! ### What the calls keep -/

def Held (P : List ResearchNode → Prop) (s : Research) : Prop :=
  P s.graph.nodes ∧ ∀ snap ∈ s.artifacts, P snap.nodes

section Keeping
variable {P : List ResearchNode → Prop} {admits : Research → (i : Ask) → Answer i → Prop}
  {sure : Research → Prop}

theorem keeping_save (event : String) : Keeping admits sure (Held P) (save event) := by
  refine keeping_save_of event (fun s s' hs hs' => ⟨hs'.1, fun snap hsnap => ?_⟩) (fun _ _ h => h)
    (fun _ _ _ h => h) fun _ _ h => h
  rcases List.mem_append.mp hsnap with hsnap | hsnap
  · exact hs'.2 snap hsnap
  · rw [List.mem_singleton.mp hsnap]
    exact hs.1

theorem keeping_resetValidation : Keeping admits sure (Held P) resetValidation := keeping_put fun _ h => h

theorem keeping_addEvidence {before : EvidenceIndex} {kind : EvidenceKind} {url text : String} :
    Keeping admits sure (Held P) (addEvidence before kind url text) := by
  refine keeping_bind (keeping_get _) fun index => keeping_bind (keeping_request _) fun made =>
    keeping_bind (keeping_settled made) fun record => ?_
  cases lookup EvidenceRecord.id record.id index.records with
  | none => exact keeping_bind (keeping_put fun _ h => h) fun _ => keeping_pure record
  | some known => exact keeping_pure known

theorem keeping_recordFailure {url error : String} :
    Keeping admits sure (Held P) (recordFailure url error) :=
  keeping_bind (keeping_request _) fun made => keeping_bind (keeping_settled made) fun _ =>
    keeping_put fun _ h => h

theorem keeping_addHits {before : EvidenceIndex} (hits : List Hit) :
    Keeping admits sure (Held P) (addHits before hits) := by
  induction hits with
  | nil => exact keeping_pure []
  | cons hit hits ih =>
    exact keeping_bind keeping_addEvidence fun _ => keeping_bind ih fun _ => keeping_pure _

theorem keeping_search {host : Host} {nodeId query : String} {maxResults : ℕ}
    {includeDomains : List String} :
    Keeping admits sure (Held P) (search host nodeId query maxResults includeDomains) :=
  keeping_bind (keeping_readyNode nodeId) fun _ => keeping_bind (keeping_settled _) fun _ =>
    keeping_bind (keeping_request _) fun answered => keeping_bind (keeping_settled answered) fun hits =>
    keeping_bind (keeping_get _) fun _ => keeping_bind (keeping_addHits hits) fun records =>
    keeping_bind (keeping_put fun _ h => h) fun _ => keeping_bind keeping_resetValidation fun _ =>
    keeping_bind (keeping_save _) fun _ => keeping_pure records

theorem keeping_refetch {host : Host} {url : String} {existing : EvidenceRecord} :
    Keeping admits sure (Held P) (refetch host url existing) := by
  refine keeping_ite (fun _ => keeping_bind keeping_resetValidation fun _ =>
    keeping_bind (keeping_get _) fun failures => keeping_ite (fun _ => ?_) fun _ => ?_)
    fun _ => keeping_pure _
  · exact keeping_bind (keeping_save _) fun _ => keeping_pure _
  · exact keeping_bind keeping_recordFailure fun _ => keeping_bind (keeping_save _) fun _ =>
      keeping_pure _

theorem keeping_fetchFailed {url error : String} :
    Keeping admits sure (Held P) (fetchFailed url error) :=
  keeping_bind keeping_recordFailure fun _ => keeping_bind (keeping_save _) fun _ => keeping_pure _

theorem keeping_fetch {host : Host} {nodeId url : String} :
    Keeping admits sure (Held P) (fetch host nodeId url) := by
  refine keeping_bind (keeping_readyNode nodeId) fun _ => keeping_bind (keeping_get _) fun before => ?_
  cases before.records.find? fun r => r.kind.Fetched ∧ rstripSlash r.canonicalUrl = rstripSlash url with
  | some existing => exact keeping_refetch
  | none =>
    refine keeping_bind (keeping_request _) fun fetched => ?_
    cases fetched with
    | error e => exact keeping_fetchFailed
    | ok source =>
      simp only
      cases host.restricted source.excerpt with
      | some problem => exact keeping_fetchFailed
      | none =>
        exact keeping_bind keeping_addEvidence fun _ => keeping_bind keeping_resetValidation fun _ =>
          keeping_bind (keeping_save _) fun _ => keeping_pure _

theorem keeping_ingested {before : EvidenceIndex} {kind : EvidenceKind} {url text : String} :
    Keeping admits sure (Held P) (ingested before kind url text) :=
  keeping_bind keeping_addEvidence fun _ => keeping_bind keeping_resetValidation fun _ =>
    keeping_bind (keeping_save _) fun _ => keeping_pure _

theorem keeping_ingestFile {nodeId path : String} {page row column : ℤ} :
    Keeping admits sure (Held P) (ingestFile nodeId path page row column) := by
  refine keeping_bind (keeping_readyNode nodeId) fun _ => keeping_bind (keeping_request _) fun extracted =>
    keeping_bind (keeping_settled extracted) fun extraction => keeping_bind (keeping_get _) fun before => ?_
  cases extraction with
  | unavailable => exact keeping_pure _
  | passage kind url text => exact keeping_ingested
  | ocr url text =>
    exact keeping_ite (fun _ => keeping_bind keeping_recordFailure fun _ => keeping_ingested)
      fun _ => keeping_ingested
  | ocrFailed url error =>
    exact keeping_bind keeping_recordFailure fun _ => keeping_bind (keeping_save _) fun _ => keeping_pure _
  | ocrUnavailable url =>
    exact keeping_bind keeping_recordFailure fun _ => keeping_bind (keeping_save _) fun _ => keeping_pure _

theorem keeping_addPages {before : EvidenceIndex} {path : String} (pages : List (ℕ × String)) :
    Keeping admits sure (Held P) (addPages before path pages) := by
  induction pages with
  | nil => exact keeping_pure []
  | cons page pages ih =>
    exact keeping_bind keeping_addEvidence fun _ => keeping_bind ih fun _ => keeping_pure _

theorem keeping_addFiles {before : EvidenceIndex} (files : List PdfFile) :
    Keeping admits sure (Held P) (addFiles before files) := by
  induction files with
  | nil => exact keeping_pure []
  | cons file files ih =>
    exact keeping_bind (keeping_get _) fun _ => keeping_bind (keeping_request _) fun read =>
      keeping_bind (keeping_settled read) fun _ => keeping_bind (keeping_addPages file.pages) fun _ =>
      keeping_bind ih fun _ => keeping_pure _

theorem keeping_ingestPdfCollection {nodeId root : String} :
    Keeping admits sure (Held P) (ingestPdfCollection nodeId root) :=
  keeping_bind (keeping_knownNode nodeId) fun _ => keeping_bind (keeping_request _) fun scanned =>
    keeping_bind (keeping_settled scanned) fun files => keeping_bind (keeping_get _) fun _ =>
    keeping_bind (keeping_addFiles files) fun pages => keeping_bind keeping_resetValidation fun _ =>
    keeping_bind (keeping_request _) fun manifest => keeping_bind (keeping_settled manifest) fun _ =>
    keeping_bind (keeping_save _) fun _ => keeping_pure pages

theorem keeping_analyze {evidenceIds : List String} :
    Keeping admits sure (Held P) (analyze evidenceIds) :=
  keeping_bind keeping_requireState fun _ => keeping_bind (keeping_invalidEvidence _) fun _ =>
    keeping_bind keeping_requireState fun _ => keeping_bind (keeping_request _) fun analyzed =>
    keeping_bind (keeping_settled analyzed) fun _ => keeping_bind (keeping_request _) fun stored =>
    keeping_bind (keeping_settled stored) fun _ => keeping_bind (keeping_get _) fun _ =>
    keeping_bind keeping_addEvidence fun _ => keeping_bind (keeping_put fun _ h => h) fun _ =>
    keeping_bind keeping_resetValidation fun _ => keeping_bind (keeping_save _) fun _ =>
    keeping_bind (keeping_put fun _ h => h) fun _ => keeping_pure _

theorem keeping_validate {claims : List Claim} {requireComplete : Bool} :
    Keeping admits sure (Held P) (validate claims requireComplete) :=
  keeping_bind (keeping_get _) fun _ => keeping_bind keeping_scored fun _ =>
    keeping_bind (keeping_get _) fun v => keeping_bind (keeping_put fun _ h => h) fun _ =>
    keeping_bind (keeping_save _) fun _ => keeping_pure v

theorem keeping_redact {host : Host} {content : String} (sources : List String) :
    Keeping admits sure (Held P) (redact host content sources) :=
  keeping_ite (fun _ => keeping_bind (keeping_save _) fun _ => keeping_pure ()) fun _ => keeping_pure ()

theorem keeping_writeReport {host : Host} {title markdown : String} :
    Keeping admits sure (Held P) (writeReport host title markdown) :=
  keeping_bind keeping_requireState fun _ => keeping_bind (keeping_get _) fun _ =>
    keeping_bind keeping_requireState fun _ => keeping_bind keeping_requireState fun _ =>
    keeping_bind keeping_requireState fun _ => keeping_bind (keeping_get _) fun sources =>
    keeping_bind keeping_requireState fun _ => keeping_bind (keeping_redact sources) fun _ =>
    keeping_bind (keeping_request _) fun stored => keeping_bind (keeping_settled stored) fun _ =>
    keeping_bind (keeping_engineSet fun _ h => h) fun _ =>
    keeping_bind (keeping_engineSet fun _ h => h) fun _ =>
    keeping_bind (keeping_engineEvent _) fun _ => keeping_pure _

theorem keeping_plan {host : Host} {question : String} {items : List Item} {replacePlan : Bool}
    (h : ∀ g r, P g.nodes → candidate host.policy.maxNodes replacePlan
      (planned (strip question) items) g = .ok r → P r.1.nodes) :
    Keeping admits sure (Held P) (plan host question items replacePlan) := by
  refine keeping_bind keeping_requireState fun _ => keeping_read fun s hs => ?_
  cases hplan : candidate host.policy.maxNodes replacePlan (planned (strip question) items) s.graph with
  | error e => exact keeping_raise e
  | ok r =>
    have hput : ∀ s', Held P s' → Held P { s' with
        graph := r.1, claims := if replacePlan then [] else s'.claims, validation := none } :=
      fun s' hs' => ⟨h s.graph r hs.1 hplan, hs'.2⟩
    exact keeping_bind (keeping_put hput) fun _ => keeping_bind (keeping_save _) fun _ => keeping_get _

end Keeping

/-! ### Resolutions -/

section Resolutions
variable {host : Host} {answers : Answers Answer} {m : ℕ} {s : Research} {nodeId claim : String}
  {evidenceIds : List String}

def judged (s : Research) (claim : String) (evidenceIds : List String) (answers : Answers Answer) :
    Except Err (List Judgment) :=
  (exec answers 0 (judgeAll claim (resolvedIds s evidenceIds)) s).1

def Expands (host : Host) (s : Research) : Event → Prop
  | .call (.resolve nodeId claim evidenceIds) answers =>
    nodeId ∈ ids s.graph.nodes ∧
      ResearchGraph.conflictId host.sha nodeId (conflictQuestion claim) ∉ ids s.graph.nodes ∧
      ∃ judgments, judged s claim evidenceIds answers = .ok judgments ∧ Contradictory judgments
  | _ => False

/-- **A call that adds a node for a contradiction** has room for it in the lane, or the graph has the
limit of the lane. -/
def InLane (host : Host) (s : Research) (e : Event) : Prop :=
  Expands host s e →
    s.graph.nodes.length < host.policy.maxNodes ∨ s.graph.maxNodes ≤ host.policy.maxNodes

theorem judgeAll_store {ids : List String} {n : ℕ} : (exec answers n (judgeAll claim ids) s).2.1 = s :=
  keeping_exec (I := fun s' => s' = s) (keeping_judgeAll ids) rfl meets_any

/-- **A resolution of a node that is there**: first the judgments, and then what follows from them. -/
theorem exec_resolve_cases {node : ResearchNode} (hnode : s.graph.node nodeId = some node) :
    (∃ e, judged s claim evidenceIds answers = .error e ∧
      (exec answers 0 (resolve host nodeId claim evidenceIds) s).2.1 = s) ∨
    ∃ judgments n, judged s claim evidenceIds answers = .ok judgments ∧
      exec answers 0 (resolve host nodeId claim evidenceIds) s =
        exec answers n (conclude host nodeId claim (resolvedIds s evidenceIds) judgments) s := by
  have hstore : (exec answers 0 (judgeAll claim (resolvedIds s evidenceIds)) s).2.1 = s := judgeAll_store
  unfold judged resolve
  rw [exec_bind, exec_knownNode, hnode]
  simp only
  rw [exec_bind, exec_get]
  simp only
  rw [exec_bind]
  generalize exec answers 0 (judgeAll claim (resolvedIds s evidenceIds)) s = r at hstore
  obtain ⟨r, s', n⟩ := r
  obtain rfl : s' = s := hstore
  cases r with
  | error e => exact Or.inl ⟨e, rfl, rfl⟩
  | ok judgments => exact Or.inr ⟨judgments, n, rfl, rfl⟩

def Within (limit : ℕ) (nodes : List ResearchNode) : Prop := Grown nodes ∧ nodes.length ≤ limit

variable {admits : Research → (i : Ask) → Answer i → Prop} {sure : Research → Prop}
  {P : List ResearchNode → Prop}

theorem keeping_record (record : ClaimRecord) {I : Research → Prop}
    (hclaims : ∀ s claims, I s → I { s with claims := claims })
    (hvalidation : ∀ s, I s → I { s with validation := none })
    (hsave : Keeping admits sure I (save "research_resolved")) {α : Type} (f : Research → α) :
    Keeping admits sure I (do
      put fun s => { s with claims := s.claims.filter (fun c => c.nodeId ≠ record.nodeId) ++ [record] }
      resetValidation
      let _ ← save "research_resolved"
      get f) :=
  keeping_bind (keeping_put fun s => hclaims s _) fun _ => keeping_bind (keeping_put hvalidation) fun _ =>
    keeping_bind hsave fun _ => keeping_get f

theorem held_record (record : ClaimRecord) {α : Type} (f : Research → α) :
    Keeping admits sure (Held P) (do
      put fun s => { s with claims := s.claims.filter (fun c => c.nodeId ≠ record.nodeId) ++ [record] }
      resetValidation
      let _ ← save "research_resolved"
      get f) :=
  keeping_record record (fun _ _ h => h) (fun _ h => h) (keeping_save _) f

/-- **The end of a resolution** keeps what the change of the node and its expansion keep. -/
theorem ends_conclude {judgments : List Judgment} {evidenceIds : List String}
    (hresolve : ∀ g, ResearchGraph.resolve nodeId (nodeState (outcome judgments)) evidenceIds s.graph =
      .ok g → P g.nodes)
    (hexpand : ∀ g g', ResearchGraph.resolve nodeId (nodeState (outcome judgments)) evidenceIds s.graph =
      .ok g → Contradictory judgments →
      g.expandContradiction host.sha nodeId (conflictQuestion claim) = .ok g' → P g'.nodes)
    (hs : Held P s) :
    Ends admits sure (fun _ => Held P) (conclude host nodeId claim evidenceIds judgments) s := by
  let record : ClaimRecord := ⟨nodeId, claim, evidenceIds, outcome judgments, judgments⟩
  refine ends_onGraph (fun g hg => ?_) fun _ _ _ => hs
  have hheld : Held P { s with graph := g } := ⟨hresolve g hg, hs.2⟩
  unfold expand
  by_cases hc : Contradictory judgments
  · rw [if_pos hc]
    exact ends_onGraph (fun g' hg' => held_record record _ _ ⟨hexpand g g' hg hc hg', hs.2⟩) fun _ _ _ => hheld
  · rw [if_neg hc]
    exact held_record record _ _ hheld

theorem resolve_cases : (exec answers 0 (resolve host nodeId claim evidenceIds) s).2.1 = s ∨
    ∃ node judgments n, s.graph.node nodeId = some node ∧ judged s claim evidenceIds answers = .ok judgments ∧
      exec answers 0 (resolve host nodeId claim evidenceIds) s =
        exec answers n (conclude host nodeId claim (resolvedIds s evidenceIds) judgments) s := by
  cases hnode : s.graph.node nodeId with
  | none =>
    refine Or.inl ?_
    unfold resolve
    rw [exec_bind, exec_knownNode, hnode]
  | some node =>
    rcases exec_resolve_cases hnode with ⟨e, -, hs⟩ | ⟨judgments, n, hjudged, hexec⟩
    · exact Or.inl hs
    · exact Or.inr ⟨node, judgments, n, rfl, hjudged, hexec⟩

end Resolutions

/-! ### Runs -/

theorem held_reload {P : List ResearchNode → Prop} {host : Host} {s : Research}
    (hgrown : ∀ nodes, P nodes → Grown nodes) (hnil : P []) (hs : Held P s) :
    Held P (reload host s) := by
  unfold reload load
  cases hnoted : noted host s with
  | none => exact ⟨hnil, hs.2⟩
  | some snap =>
    have hsnap : snap ∈ s.artifacts := by
      unfold noted at hnoted
      cases hid : s.stateId with
      | none =>
        rw [hid] at hnoted
        cases hnoted
      | some stateId =>
        rw [hid] at hnoted
        exact List.mem_of_find?_eq_some hnoted
    have hread := fromDict_toDict (g := { nodes := snap.nodes }) (hgrown _ (hs.2 snap hsnap))
    simp only [restore]
    rw [show ResearchGraph.fromDict snap.nodes = _ from hread]
    exact ⟨hs.2 snap hsnap, hs.2⟩

section Step
variable {P : List ResearchNode → Prop} {host : Host} {s : Research} {e : Event}

/-- **One event.** -/
theorem held_step (hgrown : ∀ nodes, P nodes → Grown nodes) (hnil : P [])
    (hplan : ∀ (g : ResearchGraph) r replacePlan pending, P g.nodes →
      candidate host.policy.maxNodes replacePlan pending g = .ok r → P r.1.nodes)
    (hsettle : ∀ nodes nodeId state evidenceIds, P nodes →
      P (updateWhere (fun n => n.id = nodeId) (ResearchGraph.settle state evidenceIds) nodes))
    (hexpand : ∀ nodeId claim evidenceIds answers judgments,
      e = .call (.resolve nodeId claim evidenceIds) answers →
      judged s claim evidenceIds answers = .ok judgments → Contradictory judgments →
      (∃ n, s.graph.node nodeId = some n) → ∀ g g' : ResearchGraph, P g.nodes → ids g.nodes = ids s.graph.nodes →
      g.maxNodes = s.graph.maxNodes →
      g.expandContradiction host.sha nodeId (conflictQuestion claim) = .ok g' → P g'.nodes)
    (hs : Held P s) : Held P (step host s e) := by
  cases e with
  | reload => exact held_reload hgrown hnil hs
  | call c answers =>
    have hkeeping : Keeping (fun _ _ _ => True) (fun _ => False) (Held P) (perform host c) →
        Held P (step host s (.call c answers)) := fun hp => keeping_exec hp hs meets_any
    cases c with
    | plan question items replacePlan =>
      exact hkeeping (keeping_discard (keeping_plan fun g r hg hr => hplan g r _ _ hg hr))
    | search nodeId query maxResults includeDomains => exact hkeeping (keeping_discard keeping_search)
    | fetch nodeId url => exact hkeeping (keeping_discard keeping_fetch)
    | ingestFile nodeId path page row column => exact hkeeping (keeping_discard keeping_ingestFile)
    | ingestPdfCollection nodeId root => exact hkeeping (keeping_discard keeping_ingestPdfCollection)
    | analyze evidenceIds => exact hkeeping (keeping_discard keeping_analyze)
    | validate claims requireComplete => exact hkeeping (keeping_discard keeping_validate)
    | writeReport title markdown => exact hkeeping (keeping_discard keeping_writeReport)
    | resolve nodeId claim evidenceIds =>
      change Held P (exec answers 0 (do let _ ← resolve host nodeId claim evidenceIds) s).2.1
      rw [exec_discard]
      rcases (resolve_cases (s := s) :
          (exec answers 0 (resolve host nodeId claim evidenceIds) s).2.1 = s ∨ _) with hsame | ⟨n, judgments, m, hnode, hjudged, hexec⟩
      · rw [hsame]
        exact hs
      · rw [hexec]
        refine ends_exec (ends_conclude (fun g hg => ?_) (fun g g' hg hc hg' => ?_) hs) meets_any
        · obtain rfl := resolve_eq_ok hg
          exact hsettle _ _ _ _ hs.1
        · obtain rfl := resolve_eq_ok hg
          refine hexpand _ _ _ _ judgments rfl hjudged hc ⟨n, hnode⟩ _ g' ?_ ?_ ?_ hg'
          · exact hsettle _ _ _ _ hs.1
          · exact ids_settle
          · rfl

theorem grown_step (hs : Held Grown s) : Held Grown (step host s e) :=
  held_step (fun _ h => h) Grown.nil (fun _ _ _ _ h hr => (planning_candidate h hr).1)
    (fun _ _ _ _ h => grown_settle h)
    (fun _ _ _ _ _ _ _ _ _ _ _ h _ _ hg => (grown_expand h hg).1) hs

/-- **A call that is in its lane** keeps the graph within it. -/
theorem within_step (hs : Held (Within host.policy.maxNodes) s) (hlane : InLane host s e) :
    Held (Within host.policy.maxNodes) (step host s e) := by
  refine held_step (fun _ h => h.1) ⟨Grown.nil, Nat.zero_le _⟩ (fun g r replacePlan pending h hr => ?_)
    (fun _ _ _ _ h => ⟨grown_settle h.1, le_of_eq_of_le length_updateWhere h.2⟩) ?_ hs
  · obtain ⟨hgrown, -, hlength⟩ := planning_candidate h.1 hr
    rw [max_eq_left h.2] at hlength
    exact ⟨hgrown, hlength⟩
  · rintro nodeId claim evidenceIds answers judgments rfl hjudged hc ⟨n, hnode⟩ g g' h hids hmax hg
    by_cases hknown : ResearchGraph.conflictId host.sha nodeId (conflictQuestion claim) ∈ ids s.graph.nodes
    · rw [← hids] at hknown
      rw [expand_of_known hknown hg]
      exact h
    have hmem : nodeId ∈ ids s.graph.nodes :=
      mem_ids.mpr ⟨n, mem_of_lookup hnode, key_of_lookup hnode⟩
    have hlength : g.nodes.length = s.graph.nodes.length := by
      have := congrArg List.length hids
      simpa [ids] using this
    obtain ⟨hgrown, -, hsame | ⟨hmore, hroom⟩⟩ := grown_expand h.1 hg
    · exact ⟨hgrown, hsame ▸ h.2⟩
    · refine ⟨hgrown, ?_⟩
      rcases hlane ⟨hmem, hknown, judgments, hjudged, hc⟩ with hfree | hlimit
      · omega
      · omega

end Step

/-! ### The lane is left -/

theorem outcome_of_contradictory {judgments : List Judgment} (h : Contradictory judgments) :
    outcome judgments = .refuted := if_pos h.2

/-- **A contradiction adds its node**, if the graph has room for it. -/
theorem length_of_expands {host : Host} {s : Research} {e : Event} (hs : Grown s.graph.nodes)
    (hexpands : Expands host s e) (hroom : s.graph.nodes.length < s.graph.maxNodes) :
    (step host s e).graph.nodes.length = s.graph.nodes.length + 1 := by
  match e with
  | .call (.resolve nodeId claim evidenceIds) answers =>
    obtain ⟨hmem, hnew, judgments, hjudged, hc⟩ := hexpands
    obtain ⟨m, hm, hid⟩ := mem_ids.mp hmem
    have hnode : s.graph.node nodeId = some m := (lookup_eq_some_iff (keyed_of_grown hs)).mpr ⟨hm, hid⟩
    obtain ⟨_, herror, -⟩ | ⟨_, n, hok, hexec⟩ := exec_resolve_cases hnode
    · cases herror.symm.trans hjudged
    obtain rfl := Except.ok.inj (hjudged.symm.trans hok)
    -- the node is refuted, and the contradiction comes after it
    obtain ⟨g₁, g₂, hresolve, hexpand, hlength⟩ :=
      refute_and_expand hs hmem (resolvedIds s evidenceIds) hnew hroom
    have hrefuted : nodeState (outcome judgments) = .refuted := by
      rw [outcome_of_contradictory hc]
      rfl
    change (exec answers 0 (do let _ ← resolve host nodeId claim evidenceIds) s).2.1.graph.nodes.length = _
    rw [exec_discard, hexec]
    unfold conclude expand
    rw [hrefuted, exec_bind, exec_onGraph hresolve]
    simp only [if_pos hc]
    rw [exec_bind, exec_onGraph hexpand]
    refine Eq.trans (congrArg (fun g : ResearchGraph => g.nodes.length) ?_) hlength
    let record : ClaimRecord := ⟨nodeId, claim, resolvedIds s evidenceIds, outcome judgments, judgments⟩
    refine keeping_exec (I := fun s' => s'.graph = g₂)
      (keeping_record record (fun _ _ h => h) (fun _ h => h) ?_ _) ?_ meets_any
    · exact keeping_save_of _ (fun _ _ _ h => h) (fun _ _ h => h) (fun _ _ _ h => h) fun _ _ h => h
    · rfl

/-- **The research stays within its lane**: the dependencies exist and have no cycle, a graph that is read
back has its nodes, though a limit of its own, and the graph stays within the lane exactly if every call
is in it. -/
theorem expansion_bounded (host : Host) (es : List Event) :
    let s := run (step host) {} es
    (∀ n ∈ s.graph.nodes, ∀ d ∈ n.dependencies, d ∈ ids s.graph.nodes) ∧
      (∀ id, ¬ Relation.TransGen (DependsOn s.graph.nodes) id id) ∧
      ResearchGraph.fromDict s.graph.toDict = .ok { s.graph with maxNodes := max 64 s.graph.nodes.length } ∧
      (ResearchGraph.fromDict s.graph.toDict = .ok s.graph ↔
        s.graph.maxNodes = max 64 s.graph.nodes.length) ∧
      (Along (step host) (fun s e => (step host s e).graph.nodes.length ≤ host.policy.maxNodes) {} es ↔
        Along (step host) (InLane host) {} es) := by
  intro s
  have hstart : ∀ P : List ResearchNode → Prop, P [] → Held P {} :=
    fun P h => ⟨h, fun snap hsnap => absurd hsnap List.not_mem_nil⟩
  have hgrown : Held Grown s := inv_run (I := Held Grown) (fun s e h _ => grown_step h)
    (hstart _ Grown.nil) (along_of_forall fun _ _ => trivial)
  have hread := fromDict_toDict hgrown.1
  refine ⟨exists_of_grown hgrown.1, acyclic_of_grown hgrown.1, hread, ?_, ?_⟩
  · rw [hread]
    constructor
    · intro h
      exact (congrArg ResearchGraph.maxNodes (Except.ok.inj h)).symm
    · intro h
      rw [← h]
  · refine along_iff_of_inv (I := Held (Within host.policy.maxNodes)) (fun s e h hlane => within_step h hlane)
      (fun s e h => ⟨fun hlength hexpands => ?_, fun hlane => (within_step h hlane).1.2⟩)
      (hstart _ ⟨Grown.nil, Nat.zero_le _⟩)
    by_contra hfull
    push Not at hfull
    have hmore := length_of_expands h.1.1 hexpands (h.1.2.trans_lt hfull.2)
    have := h.1.2
    omega

/-- Four questions are planned in the quick lane, the session is opened again, and a contradiction is
found. -/
def contradicted : List Event :=
  let agreed := agreeable fun _ => .supported
  [.call (.plan "q" [⟨"a", "a", [], none⟩, ⟨"b", "b", [], none⟩, ⟨"c", "c", [], none⟩, ⟨"d", "d", [], none⟩]
      false) agreed,
    .reload, .call (.fetch "a" "x") agreed, .call (.fetch "a" "y") agreed,
    .call (.resolve "a" "claim" ["x", "y"])
      (agreeable fun id => if id = "x" then .supported else .refuted)]

/-- A session that has been opened again may have more nodes than its lane. -/
theorem expanded_beyond_lane : ¬ ∀ (host : Host) (es : List Event),
    (run (step host) {} es).graph.nodes.length ≤ host.policy.maxNodes := by
  intro h
  have hlength : 4 < (run (step (plain quickPolicy)) {} contradicted).graph.nodes.length := by decide +kernel
  exact absurd (h (plain quickPolicy) contradicted) (not_le.mpr hlength)

end Smara.Research.Bounds
